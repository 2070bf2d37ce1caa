/-
# Predicate translators

A translator is a TypeScript function that turns the load request of a collection (filters, sorts,
limit, offset) into query parameters or GraphQL variables, in one of four wordings.
-/
import ApiSchema.Name
import ApiSchema.Settings
import ApiSchema.Template.Basic

namespace ApiSchema.Predicate

/-- Where the API description came from. -/
inductive Source
  | openApi
  | graphQL
deriving DecidableEq, Inhabited

namespace Source

def name : Source → String
  | openApi => "openapi"
  | graphQL => "graphql"

def ofName? (name : String) : Option Source := [openApi, graphQL].find? (·.name == name)

def unknownMessage (name : String) : String :=
  "Unknown source type \"" ++ name ++ "\". Expected \"openapi\" or \"graphql\""

/-- The wordings of a source, of which the first is taken when another one is asked for. -/
def wordings : Source → List Wording
  | openApi => [.restSimple, .jsonApi]
  | graphQL => [.hasura, .prisma]

/-- The wording taken when the one asked for is not available. -/
def fallback : Source → Wording
  | openApi => .restSimple
  | graphQL => .hasura

end Source

/-! ## Choice of the wording -/

/-- The wording of a collection: the one asked for, then the one detected if it is known, then
simple parameters. -/
def wording (collection : Collection) : Wording :=
  match collection.mapping with
  | some mapping => mapping
  | none => (collection.style.bind fun style => Wording.named.lookup style).getD .restSimple

def translatorName (collection : Collection) : String :=
  "translate" ++ Name.pascalCase collection.name ++ "Predicates"

/-- Only collections loaded on demand need a translator. -/
def isNeeded (collection : Collection) : Bool := collection.loading == some .onDemand

/-- The imports that translators rely on. -/
def imports : String :=
  "import \x7b parseLoadSubsetOptions \x7d from \"@tanstack/query-db-collection\"\n" ++
    "import type \x7b LoadSubsetOptions \x7d from \"@tanstack/db\""

/-! ## Layouts -/

/-- The layout of a translator to query parameters. -/
def restTemplate : Template where
  name := "predicates/rest.ts.j2"
  pieces :=
    [.text "/**\n * Translate collection predicates to ", .slot "name", .text " ", .slot "label",
      .text "\n */\nfunction ", .slot "fn_name", .text "(\n\toptions?: LoadSubsetOptions\n): ",
      .slot "return_type",
      .text (" \x7b\n\tif (!options) return \x7b\x7d\n\n" ++
        "\tconst parsed = parseLoadSubsetOptions(options)\n" ++
        "\tconst params: Record<string, unknown> = \x7b\x7d\n\n" ++
        "\tfor (const filter of parsed.filters) \x7b\n" ++
        "\t\tconst fieldName = filter.field.join(\".\")\n\t\tswitch (filter.operator) \x7b\n"),
      .each "operator, key" "filter_keys"
        [.text "\t\t\tcase ", .quoted "operator", .text ":\n\t\t\t\tparams[", .slot "key",
          .text "] = filter.value\n\t\t\t\tbreak\n"],
      .text ("\t\t\t// Unsupported operators are ignored\n\t\t\x7d\n\t\x7d\n\n" ++
        "\tif (parsed.sorts.length > 0) \x7b\n\t\tparams["),
      .quoted "sort_param",
      .text ("] = parsed.sorts\n" ++
        "\t\t\t.map((s) => `$\x7bs.direction === \"desc\" ? \"-\" : \"\"\x7d" ++
        "$\x7bs.field.join(\".\")\x7d`)\n\t\t\t.join(\",\")\n\t\x7d\n\n" ++
        "\tif (parsed.limit != null) params["),
      .quoted "limit_param",
      .text "] = parsed.limit\n\tif (options.offset != null) params[", .quoted "offset_param",
      .text "] = options.offset\n\n\treturn params as ", .slot "return_type", .text "\n\x7d\n"]

/-- The layout of the helper that nests a value under a path. -/
def nestingTemplate : Template where
  name := "predicates/build_nested_object.ts.j2"
  pieces :=
    [.text ("/**\n * Build a nested object from a field path\n" ++
      " * e.g. [\"user\", \"name\"] with value \"asc\" -> " ++
      "\x7b user: \x7b name: \"asc\" \x7d \x7d\n */\n" ++
      "function buildNestedObject(\n\tpath: string[],\n\tvalue: unknown\n" ++
      "): Record<string, unknown> \x7b\n" ++
      "\tif (path.length === 0) return value as Record<string, unknown>\n" ++
      "\tif (path.length === 1) return \x7b [path[0]]: value \x7d\n\n" ++
      "\tconst [first, ...rest] = path\n" ++
      "\treturn \x7b [first]: buildNestedObject(rest, value) \x7d\n\x7d\n")]

/-- The layout of a translator to GraphQL variables. -/
def graphQLTemplate : Template where
  name := "predicates/graphql.ts.j2"
  pieces :=
    [.text "/**\n * Translate collection predicates to ", .slot "name", .text " ", .slot "label",
      .text " GraphQL variables\n */\nfunction ", .slot "fn_name",
      .text "(\n\toptions?: LoadSubsetOptions\n): ", .slot "return_type",
      .text (" \x7b\n\tif (!options) return \x7b\x7d\n\n" ++
        "\tconst parsed = parseLoadSubsetOptions(options)\n" ++
        "\tconst variables: Record<string, unknown> = \x7b\x7d\n\n" ++
        "\tif (parsed.filters.length > 0) \x7b\n" ++
        "\t\tconst whereConditions: Record<string, unknown>[] = []\n\n" ++
        "\t\tfor (const filter of parsed.filters) \x7b\n" ++
        "\t\t\tlet condition: Record<string, unknown>\n\t\t\tswitch (filter.operator) \x7b\n"),
      .each "operator, key" "operator_keys"
        [.text "\t\t\t\tcase ", .quoted "operator",
          .text ":\n\t\t\t\t\tcondition = buildNestedObject(filter.field, \x7b ", .slot "key",
          .text ": filter.value \x7d)\n\t\t\t\t\tbreak\n"],
      .text ("\t\t\t\t// Unsupported operators are ignored\n" ++
        "\t\t\t\tdefault:\n\t\t\t\t\tcontinue\n\t\t\t\x7d\n" ++
        "\t\t\twhereConditions.push(condition)\n\t\t\x7d\n\n" ++
        "\t\tif (whereConditions.length === 1) \x7b\n" ++
        "\t\t\tvariables.where = whereConditions[0]\n" ++
        "\t\t\x7d else if (whereConditions.length > 1) \x7b\n\t\t\tvariables.where = \x7b "),
      .slot "and_key",
      .text (": whereConditions \x7d\n\t\t\x7d\n\t\x7d\n\n" ++
        "\tif (parsed.sorts.length > 0) \x7b\n\t\tvariables."),
      .slot "order_key",
      .text (" = parsed.sorts.map((s) =>\n\t\t\tbuildNestedObject(s.field, s.direction)\n" ++
        "\t\t)\n\t\x7d\n\n\tif (parsed.limit != null) variables["),
      .quoted "limit_param",
      .text "] = parsed.limit\n\tif (options.offset != null) variables[", .quoted "offset_param",
      .text "] = options.offset\n\n\treturn variables as ", .slot "return_type",
      .text "\n\x7d\n",
      .onlyIf "include_helpers"
        [.text "\n", .included nestingTemplate.name nestingTemplate.pieces]]

/-! ## Parameters of the layouts -/

def operators : List String := ["eq", "lt", "lte", "gt", "gte", "in"]

def restSimpleKey (operator : String) : String :=
  if operator == "eq" then "fieldName" else "`$\x7bfieldName\x7d_" ++ operator ++ "`"

def jsonApiKey (operator : String) : String :=
  if operator == "eq" then "`filter[$\x7bfieldName\x7d]`"
  else "`filter[$\x7bfieldName\x7d][" ++ operator ++ "]`"

def hasuraKey (operator : String) : String := "_" ++ operator

def prismaKey (operator : String) : String := if operator == "eq" then "equals" else operator

/-- A setting, or a default if it is missing or empty. -/
def orDefault (setting : Option String) (default : String) : String :=
  match setting with
  | some text => if text == "" then default else text
  | none => default

/-- The rows of operators with their keys. -/
def keyRows (key : String → String) : List (List (String × String)) :=
  operators.map fun operator => [("operator", operator), ("key", key operator)]

/-- The type of the translator's result. -/
def returnType : Option String → String
  | some type => if type == "" then "Record<string, unknown>" else "Partial<" ++ type ++ ">"
  | none => "Record<string, unknown>"

def translatorText (collection : Collection) (wording : Wording) (paramsType : Option String)
    (helpers : Bool) : String :=
  let common :=
    [("name", collection.name), ("fn_name", translatorName collection),
      ("return_type", returnType paramsType)]
  let flags := if helpers then ["include_helpers"] else []
  let limits (limit offset : String) :=
    [("limit_param", orDefault collection.limitParam limit),
      ("offset_param", orDefault collection.offsetParam offset)]
  match wording with
  | .restSimple =>
    restTemplate.fill
      { texts := common ++ [("label", "query parameters"),
          ("sort_param", orDefault collection.sortParam "sort")] ++ limits "limit" "offset"
        tables := [("filter_keys", keyRows restSimpleKey)]
        flags := [] }
  | .jsonApi =>
    let pages :=
      if collection.paging == some .page then
        [("limit_param", "page[limit]"), ("offset_param", "page[offset]")]
      else limits "page[limit]" "page[offset]"
    restTemplate.fill
      { texts := common ++ [("label", "JSON:API query parameters"), ("sort_param", "sort")] ++ pages
        tables := [("filter_keys", keyRows jsonApiKey)]
        flags := [] }
  | .hasura =>
    graphQLTemplate.fill
      { texts := common ++ [("label", "Hasura"), ("and_key", "_and"), ("order_key", "order_by")] ++
          limits "limit" "offset"
        tables := [("operator_keys", keyRows hasuraKey)]
        flags := flags }
  | .prisma =>
    graphQLTemplate.fill
      { texts := common ++ [("label", "Prisma"), ("and_key", "AND"), ("order_key", "orderBy")] ++
          limits "take" "skip"
        tables := [("operator_keys", keyRows prismaKey)]
        flags := flags }

/-! ## Translators -/

/-- A translator: its text, its wording and what was noticed. -/
structure Translator where
  content : String
  wording : Wording
  warnings : List String
deriving Inhabited

/-- The warning about a wording that the source does not have. -/
def unavailableWarning (wording : Wording) (source : Source) (collection : Collection) : String :=
  "Predicate dialect \"" ++ wording.name ++ "\" is not available for " ++ source.name ++
    " collection \"" ++ collection.name ++ "\", using \"" ++ source.fallback.name ++ "\""

def translator (collection : Collection) (paramsType : Option String) (source : Source)
    (helpers : Bool) : Translator :=
  let asked := wording collection
  if source.wordings.contains asked then
    ⟨translatorText collection asked paramsType helpers, asked, []⟩
  else
    ⟨translatorText collection source.fallback paramsType helpers, source.fallback,
      [unavailableWarning asked source collection]⟩

end ApiSchema.Predicate
