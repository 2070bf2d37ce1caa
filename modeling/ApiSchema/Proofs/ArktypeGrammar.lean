/-
# The grammar of ArkType's texts

The text that defines a schema in ArkType's notation can be read again. The notation has a grammar:
brackets after an operand bind tighter than `&`, which binds tighter than `|`; parentheses group, a
text between quotes is a literal, and the other words have fixed meanings. A text has at most one
tree in the grammar, a reader finds it, and the tree of a schema's text is the schema itself except
for how unions are nested in unions and intersections in intersections.
-/
import ApiSchema.Validator.Arktype
import ApiSchema.Proofs.Acceptance
import ApiSchema.Proofs.Ensures
import ApiSchema.Proofs.Numerals

namespace ApiSchema.Arktype

open List

variable {tree : Schema} {c : Char} {pending after : Pending}

/-! ## Tokens -/

/-- How two definitions are combined. -/
inductive Operator
  | either
  | both
deriving DecidableEq

namespace Operator

/-- The combination of several schemas. -/
def schema : Operator → List Schema → Schema
  | either => .union
  | both => .intersection

def mark : Operator → Char
  | either => '|'
  | both => '&'

/-- What stands between the definitions that are combined. -/
def separator (operator : Operator) : String := String.ofList [' ', operator.mark, ' ']

end Operator

inductive Token
  | opening
  | closing
  | brackets
  | operator (operator : Operator)
  | word (text : String)
  | quoted (text : String)
deriving DecidableEq

/-- Whether a character can stand in a word. -/
def isWordPart (c : Char) : Bool := c.isAlphanum || c == '.' || c == '-'

/-- What is begun but not complete between two characters. -/
inductive Pending
  | nothing
  | bracket
  | word (chars : List Char)
  | quoted (chars : List Char)

/-- The tokens that a character completes, and what is pending after it, if nothing is before it. -/
def begun : Char → Option (List Token × Pending)
  | ' ' => some ([], .nothing)
  | '(' => some ([.opening], .nothing)
  | ')' => some ([.closing], .nothing)
  | '|' => some ([.operator .either], .nothing)
  | '&' => some ([.operator .both], .nothing)
  | '[' => some ([], .bracket)
  | '\'' => some ([], .quoted [])
  | c => if isWordPart c then some ([], .word [c]) else none

namespace Pending

/-- The tokens that a character completes, and what is pending after it. -/
def next : Pending → Char → Option (List Token × Pending)
  | nothing, c => begun c
  | bracket, c => if c = ']' then some ([.brackets], nothing) else none
  | word chars, c =>
    if isWordPart c then some ([], word (chars ++ [c]))
    else (begun c).map fun (tokens, after) => (.word (String.ofList chars) :: tokens, after)
  | quoted chars, c =>
    if c = '\'' then some ([.quoted (String.ofList chars)], nothing)
    else if c = '\\' then none
    else some ([], quoted (chars ++ [c]))

/-- The tokens that the end of the text completes. -/
def finish : Pending → Option (List Token)
  | nothing => some []
  | word chars => some [.word (String.ofList chars)]
  | _ => none

end Pending

/-- The tokens of a text. -/
def scan : Pending → List Char → Option (List Token)
  | pending, [] => pending.finish
  | pending, c :: rest =>
    (pending.next c).bind fun (tokens, after) => (scan after rest).map (tokens ++ ·)

/-! ## Trees -/

/-- The words with a meaning of their own. -/
def words : List (String × Schema) :=
  [("string", .string none), ("string.email", .string (some .email)),
    ("string.url", .string (some .url)), ("string.uuid", .string (some .uuid)),
    ("string.date.iso", .string (some .datetime)), ("string.ip.v4", .string (some .ipv4)),
    ("string.ip.v6", .string (some .ipv6)), ("number", .number false),
    ("number.integer", .number true), ("boolean", .keyword .boolean), ("bigint", .keyword .bigint),
    ("null", .keyword .null), ("undefined", .keyword .undefined), ("unknown", .keyword .unknown),
    ("never", .keyword .never), ("Date", .keyword .date), ("true", .literal (.atom (.bool true))),
    ("false", .literal (.atom (.bool false)))]

/-- The number of decimal digits. -/
def natural? (digits : List Char) : Option Nat :=
  if !digits.isEmpty && digits.all Char.isDigit then some (Nat.ofDigitChars 10 digits 0) else none

/-- The whole number of decimal digits, with a minus before them or not. -/
def wholeNumber? : List Char → Option Int
  | '-' :: digits => (natural? digits).map fun n : Nat => -(n : Int)
  | digits => (natural? digits).map fun n : Nat => (n : Int)

/-- The meaning of a word; a whole number is a literal. -/
def wordSchema? (word : String) : Option Schema :=
  (words.lookup word).or ((wholeNumber? word.toList).map fun n => .literal (.atom (.int n)))

/-- The levels of the grammar: operands, and what an operator combines. -/
inductive Level
  | operand
  | chain (operator : Operator)

/-- The level of what an operator combines: `&` binds tighter than `|`. -/
def Operator.level : Operator → Level
  | both => .operand
  | either => .chain .both

/-- The grammar: the tokens have the tree at the level. -/
inductive Reads : Level → List Token → Schema → Prop
  | word {text : String} {tree : Schema} (h : wordSchema? text = some tree) :
      Reads .operand [.word text] tree
  | quoted {text : String} : Reads .operand [.quoted text] (.literal (.atom (.text text)))
  | group {tokens : List Token} {tree : Schema} (h : Reads (.chain .either) tokens tree) :
      Reads .operand (.opening :: tokens ++ [.closing]) tree
  | array {tokens : List Token} {tree : Schema} (h : Reads .operand tokens tree) :
      Reads .operand (tokens ++ [.brackets]) (.array tree)
  | lone {operator : Operator} {tokens : List Token} {tree : Schema}
      (h : Reads operator.level tokens tree) : Reads (.chain operator) tokens tree
  | chain {operator : Operator} {first rest : List Token} {tree others : Schema}
      (hfirst : Reads operator.level first tree) (hrest : Reads (.chain operator) rest others) :
      Reads (.chain operator) (first ++ .operator operator :: rest) (operator.schema [tree, others])

/-- The text has the tree in the grammar. -/
def Denotes (text : String) (tree : Schema) : Prop :=
  ∃ tokens, scan .nothing text.toList = some tokens ∧ Reads (.chain .either) tokens tree

/-- The trees that differ only in how unions are nested in unions and intersections in
intersections, a union or intersection of one being that one. -/
inductive Alike : Schema → Schema → Prop
  | refl (schema : Schema) : Alike schema schema
  | symm {left right : Schema} (h : Alike left right) : Alike right left
  | trans {left middle right : Schema} (h : Alike left middle) (h' : Alike middle right) :
      Alike left right
  | items {left right : Schema} (h : Alike left right) : Alike (.array left) (.array right)
  | member (operator : Operator) (before after : List Schema) {left right : Schema}
      (h : Alike left right) :
      Alike (operator.schema (before ++ left :: after)) (operator.schema (before ++ right :: after))
  | lone (operator : Operator) (member : Schema) : Alike (operator.schema [member]) member
  | nested (operator : Operator) (before inner after : List Schema) :
      Alike (operator.schema (before ++ operator.schema inner :: after))
        (operator.schema (before ++ inner ++ after))

namespace Alike

variable {operator : Operator} {first rest first' rest' : Schema}

theorem pair (h : Alike first first') (h' : Alike rest rest') :
    Alike (operator.schema [first, rest]) (operator.schema [first', rest']) :=
  .trans (.member operator [] [rest] h) (.member operator [first'] [] h')

/-- A chain is one combination. -/
theorem cons (h : Alike first first') {others : List Schema}
    (h' : Alike rest (operator.schema others)) :
    Alike (operator.schema [first, rest]) (operator.schema (first' :: others)) := by
  have hn := nested operator [first'] others []
  rw [append_nil] at hn
  exact (pair h h').trans hn

/-- Alike schemas accept the same values. -/
theorem accepts_iff {catalog : Catalog} {meaning : Interpretation} {left right : Schema}
    (h : Alike left right) (value : Value) :
    Accepts catalog meaning left value ↔ Accepts catalog meaning right value := by
  induction h generalizing value with
  | refl => exact Iff.rfl
  | symm _ ih => exact (ih value).symm
  | trans _ _ ih ih' => exact (ih value).trans (ih' value)
  | items _ ih => simp only [Accepts.array_iff, ih]
  | member operator before after _ ih =>
    cases operator <;>
      simp only [Operator.schema, Accepts.union_iff, Accepts.intersection_iff, mem_append,
        mem_cons, or_imp, forall_and, or_and_right, exists_or, exists_eq_left, forall_eq, ih]
  | lone operator member =>
    cases operator <;>
      simp only [Operator.schema, Accepts.union_iff, Accepts.intersection_iff, mem_singleton,
        exists_eq_left, forall_eq]
  | nested operator before inner after =>
    cases operator <;>
      simp only [Operator.schema, Accepts.union_iff, Accepts.intersection_iff, mem_append,
        mem_cons, or_imp, forall_and, or_and_right, exists_or, exists_eq_left, forall_eq,
        or_assoc]

end Alike

/-! ## Reading -/

/-- What is read between two parentheses: the alternatives and the conditions that are complete,
the latest first, and the operand that came last. -/
structure Frame where
  alternatives : List Schema
  conditions : List Schema
  operand : Option Schema

def Frame.empty : Frame := ⟨[], [], none⟩

/-- The combination of what is complete with what came last. -/
def Operator.close (operator : Operator) (complete : List Schema) (last : Schema) : Schema :=
  complete.foldl (fun tree earlier => operator.schema [earlier, tree]) last

/-- What is read with the alternatives, the conditions and the operand. -/
def closeAll (alternatives conditions : List Schema) (last : Schema) : Schema :=
  Operator.either.close alternatives (Operator.both.close conditions last)

/-- One step of the reader on the frames of the open parentheses, the innermost first. -/
def step : List Frame → Token → Option (List Frame)
  | ⟨alternatives, conditions, none⟩ :: frames, .word text =>
    (wordSchema? text).map fun tree => ⟨alternatives, conditions, some tree⟩ :: frames
  | ⟨alternatives, conditions, none⟩ :: frames, .quoted text =>
    some (⟨alternatives, conditions, some (.literal (.atom (.text text)))⟩ :: frames)
  | ⟨alternatives, conditions, none⟩ :: frames, .opening =>
    some (Frame.empty :: ⟨alternatives, conditions, none⟩ :: frames)
  | ⟨alternatives, conditions, some tree⟩ :: frames, .brackets =>
    some (⟨alternatives, conditions, some (.array tree)⟩ :: frames)
  | ⟨alternatives, conditions, some tree⟩ :: frames, .operator .both =>
    some (⟨alternatives, tree :: conditions, none⟩ :: frames)
  | ⟨alternatives, conditions, some tree⟩ :: frames, .operator .either =>
    some (⟨Operator.both.close conditions tree :: alternatives, [], none⟩ :: frames)
  | ⟨alternatives, conditions, some tree⟩ :: ⟨outer, others, none⟩ :: frames, .closing =>
    some (⟨outer, others, some (closeAll alternatives conditions tree)⟩ :: frames)
  | _, _ => none

/-- The tree of a text. -/
def read? (text : String) : Option Schema := do
  let tokens ← scan .nothing text.toList
  match ← tokens.foldlM step [Frame.empty] with
  | [⟨alternatives, conditions, some tree⟩] => some (closeAll alternatives conditions tree)
  | _ => none

/-- What the reader makes of tokens that have a tree at a level. -/
def Level.Run : Level → List Token → Schema → Prop
  | .operand, tokens, tree => ∀ alternatives conditions frames,
    tokens.foldlM step (⟨alternatives, conditions, none⟩ :: frames) =
      some (⟨alternatives, conditions, some tree⟩ :: frames)
  | .chain .both, tokens, tree => ∀ alternatives conditions frames, ∃ conditions' last,
    tokens.foldlM step (⟨alternatives, conditions, none⟩ :: frames) =
        some (⟨alternatives, conditions', some last⟩ :: frames) ∧
      Operator.both.close conditions' last = Operator.both.close conditions tree
  | .chain .either, tokens, tree => ∀ alternatives frames, ∃ alternatives' conditions' last,
    tokens.foldlM step (⟨alternatives, [], none⟩ :: frames) =
        some (⟨alternatives', conditions', some last⟩ :: frames) ∧
      closeAll alternatives' conditions' last = Operator.either.close alternatives tree

variable {tokens : List Token}

/-- What can be read is what the reader gives. -/
theorem Reads.run {level : Level} (h : Reads level tokens tree) : level.Run tokens tree := by
  induction h with
  | word h =>
    intro alternatives conditions frames
    simp [step, h]
  | quoted =>
    intro alternatives conditions frames
    simp [step]
  | group _ ih =>
    intro alternatives conditions frames
    obtain ⟨alternatives', conditions', last, hr, hc⟩ :=
      ih [] (⟨alternatives, conditions, none⟩ :: frames)
    rw [cons_append, foldlM_cons, step, Option.bind_eq_bind, Option.bind_some,
      foldlM_append, Frame.empty, hr]
    simp [step, hc, Operator.close]
  | array _ ih =>
    intro alternatives conditions frames
    rw [foldlM_append, ih]
    simp [step]
  | @lone operator tokens tree _ ih =>
    cases operator with
    | both =>
      intro alternatives conditions frames
      exact ⟨conditions, tree, ih .., rfl⟩
    | either =>
      intro alternatives frames
      obtain ⟨conditions', last, hr, hc⟩ := ih alternatives [] frames
      exact ⟨alternatives, conditions', last, hr, congrArg _ hc⟩
  | @chain operator first rest tree others _ _ ihfirst ihrest =>
    cases operator with
    | both =>
      intro alternatives conditions frames
      obtain ⟨conditions', last, hr, hc⟩ := ihrest alternatives (tree :: conditions) frames
      refine ⟨conditions', last, ?_, hc⟩
      rw [foldlM_append, ihfirst]
      exact hr
    | either =>
      intro alternatives frames
      obtain ⟨conditions, tree', hf, ht⟩ := ihfirst alternatives [] frames
      obtain rfl : Operator.both.close conditions tree' = tree := ht
      obtain ⟨alternatives', conditions', last, hr, hc⟩ :=
        ihrest (Operator.both.close conditions tree' :: alternatives) frames
      refine ⟨alternatives', conditions', last, ?_, hc⟩
      rw [foldlM_append, hf]
      exact hr

variable {text : String}

/-- The reader finds the tree of a text, so there is only one. -/
theorem Denotes.read? (h : Denotes text tree) : read? text = some tree := by
  obtain ⟨tokens, ht, hr⟩ := h
  obtain ⟨alternatives, conditions, last, hrn, hc⟩ := hr.run [] []
  rw [Arktype.read?, ht, Option.bind_eq_bind, Option.bind_some, Frame.empty, hrn]
  exact congrArg some hc

example : read? "number[] & 'a b' | (null | -5)[]" =
    some (.union [.intersection [.array (.number false), .literal (.atom (.text "a b"))],
      .array (.union [.null, .literal (.atom (.int (-5)))])]) := by
  rfl

/-! ## Scanning -/

/-- The characters are no further part of a word before them. -/
def Bounded (chars : List Char) : Prop := ∀ c ∈ chars.head?, isWordPart c = false

variable {chars : List Char}

theorem bounded_cons (h : isWordPart c = false) : Bounded (c :: chars) := by
  rintro _ ⟨⟩
  exact h

theorem Bounded.append {rest : List Char} (h : Bounded chars) (h' : Bounded rest) :
    Bounded (chars ++ rest) := by
  cases chars with
  | nil => exact h'
  | cons c chars => exact h

theorem begun_of_isWordPart (h : isWordPart c) : begun c = some ([], .word [c]) := by
  unfold begun
  split
  iterate 7 exact absurd h (by decide)
  rw [if_pos h]

theorem scan_cons {rest : List Char} (h : pending.next c = some (tokens, after)) :
    scan pending (c :: rest) = (scan after rest).map (tokens ++ ·) := by
  rw [scan, h, Option.bind_some]

theorem scan_cons_of_begun {rest : List Char}
    (h : pending.next c = some ([], after)) : scan pending (c :: rest) = scan after rest := by
  rw [scan_cons h]
  exact Option.map_id_apply

/-- Where a word ends, the scanner goes on as if nothing were before. -/
theorem scan_word_of_bounded {rest : List Char} (h : Bounded rest) :
    scan (.word chars) rest = (scan .nothing rest).map (.word (String.ofList chars) :: ·) := by
  cases rest with
  | nil => rfl
  | cons c rest =>
    have hc : ¬ isWordPart c := by simp [h c rfl]
    rw [scan, scan, Pending.next, Pending.next, if_neg hc]
    cases begun c with
    | none => rfl
    | some pair => simp [Function.comp_def]

/-- Further parts of a word are added to it. -/
theorem scan_word_append (pending : List Char) {rest : List Char}
    (hc : ∀ c ∈ chars, isWordPart c) :
    scan (.word pending) (chars ++ rest) = scan (.word (pending ++ chars)) rest := by
  induction chars generalizing pending with
  | nil => rw [nil_append, append_nil]
  | cons c chars ih =>
    have hn : (Pending.word pending).next c = some ([], .word (pending ++ [c])) := by
      rw [Pending.next, if_pos (hc c (mem_cons_self ..))]
    rw [cons_append, scan_cons_of_begun hn, ih _ (forall_mem_cons.mp hc).2, append_assoc]
    rfl

/-- A text between quotes is added up to the quote that ends it. -/
theorem scan_quoted (pending : List Char) {rest : List Char}
    (hch : ∀ c ∈ chars, isMark c = false) :
    scan (.quoted pending) (chars ++ '\'' :: rest) =
      (scan .nothing rest).map (.quoted (String.ofList (pending ++ chars)) :: ·) := by
  induction chars generalizing pending with
  | nil =>
    have hn : (Pending.quoted pending).next '\'' =
        some ([.quoted (String.ofList pending)], .nothing) := rfl
    rw [append_nil]
    rfl
  | cons c chars ih =>
    have hc : ¬ c = '\'' ∧ ¬ c = '\\' := by
      simpa [isMark] using hch c (mem_cons_self ..)
    have hn : (Pending.quoted pending).next c = some ([], .quoted (pending ++ [c])) := by
      rw [Pending.next, if_neg hc.1, if_neg hc.2]
    rw [cons_append, scan_cons_of_begun hn, ih _ (forall_mem_cons.mp hch).2, append_assoc]
    rfl

/-- The characters are the tokens, whatever follows that does not go on with the last word. -/
def Scans (chars : List Char) (tokens : List Token) : Prop :=
  ∀ rest, Bounded rest → scan .nothing (chars ++ rest) = (scan .nothing rest).map (tokens ++ ·)

variable {first : List Token}

namespace Scans

variable {chars others : List Char} {tokens further : List Token}

/-- All tokens are found from the start. -/
theorem scan_eq (h : Scans chars tokens) : scan .nothing chars = some tokens := by
  have hs := h [] (by simp [Bounded])
  rw [append_nil] at hs
  rw [hs]
  simp [scan, Pending.finish]

/-- Texts one after the other, where no word runs on. -/
theorem append (h : Scans chars tokens) (h' : Scans others further) (ho : Bounded others) :
    Scans (chars ++ others) (tokens ++ further) := by
  intro rest hr
  rw [append_assoc, h _ (ho.append hr), h' _ hr, Option.map_map]
  simp only [Function.comp_def, append_assoc]

/-- A character that begins nothing stands for itself. -/
theorem cons (hc : begun c = some (first, .nothing))
    (h : Scans chars tokens) : Scans (c :: chars) (first ++ tokens) := by
  intro rest hr
  have hn : Pending.nothing.next c = some (first, .nothing) := hc
  rw [cons_append, scan_cons hn, h rest hr, Option.map_map]
  simp only [Function.comp_def, append_assoc]

theorem nil : Scans [] [] := fun _ _ => Option.map_id_apply.symm

theorem word (hne : text ≠ "") (h : ∀ c ∈ text.toList, isWordPart c) :
    Scans text.toList [.word text] := by
  intro rest hr
  obtain ⟨c, chars, hc⟩ := exists_cons_of_ne_nil (mt String.toList_eq_nil_iff.mp hne)
  rw [hc, forall_mem_cons] at h
  have hn : Pending.nothing.next c = some ([], .word [c]) := begun_of_isWordPart h.1
  rw [hc, cons_append, scan_cons_of_begun hn, scan_word_append _ h.2,
    scan_word_of_bounded hr, singleton_append, ← hc, String.ofList_toList]
  rfl

/-- A text without marks, in quotes. -/
theorem quoted (h : ∀ c ∈ text.toList, isMark c = false) :
    Scans ('\'' :: text.toList ++ ['\'']) [.quoted text] := by
  intro rest hr
  have hn : Pending.nothing.next '\'' = some ([], .quoted []) := rfl
  rw [cons_append, cons_append, append_assoc, scan_cons_of_begun hn,
    singleton_append, scan_quoted [] h, nil_append, String.ofList_toList]
  rfl

theorem brackets : Scans ['[', ']'] [.brackets] := by
  intro rest _
  have ho : Pending.nothing.next '[' = some ([], .bracket) := rfl
  rw [cons_append, scan_cons_of_begun ho]
  rfl

end Scans

/-! ## Texts of schemas -/

/-- The text has a tree at the level that is the schema up to nesting. -/
def Encodes (level : Level) (text : String) (schema : Schema) : Prop :=
  ∃ tokens tree, Scans text.toList tokens ∧ Reads level tokens tree ∧ Alike tree schema

namespace Encodes

variable {level : Level} {text : String} {schema other : Schema}

theorem alike (h : Encodes level text schema) (h' : Alike schema other) :
    Encodes level text other := by
  obtain ⟨tokens, tree, hs, hr, ha⟩ := h
  exact ⟨tokens, tree, hs, hr, ha.trans h'⟩

theorem lone (operator : Operator) (h : Encodes operator.level text schema) :
    Encodes (.chain operator) text schema := by
  obtain ⟨tokens, tree, hs, hr, ha⟩ := h
  exact ⟨tokens, tree, hs, hr.lone, ha⟩

theorem word (h : wordSchema? text = some schema) (hn : text ≠ "")
    (hc : ∀ c ∈ text.toList, isWordPart c) : Encodes .operand text schema :=
  ⟨_, schema, .word hn hc, .word h, .refl schema⟩

/-- A text in parentheses is an operand. -/
theorem group (h : Encodes (.chain .either) text schema) :
    Encodes .operand ("(" ++ text ++ ")") schema := by
  obtain ⟨tokens, tree, hs, hr, ha⟩ := h
  refine ⟨_, tree, ?_, hr.group, ha⟩
  have ho : begun '(' = some ([.opening], .nothing) := rfl
  have hc : begun ')' = some ([.closing], .nothing) := rfl
  simpa using Scans.cons ho (hs.append (.cons hc .nil) (bounded_cons (by decide)))

/-- A text with brackets after it is that of an array. -/
theorem array (h : Encodes .operand text schema) :
    Encodes .operand (text ++ "[]") (.array schema) := by
  obtain ⟨tokens, tree, hs, hr, ha⟩ := h
  refine ⟨_, _, ?_, hr.array, .items ha⟩
  rw [String.toList_append]
  exact hs.append .brackets (bounded_cons (by decide))

end Encodes

variable {operator : Operator}

/-- Two chains with their operator between them are a chain. -/
theorem Reads.join {rest : List Token} {others : Schema}
    (h : Reads (.chain operator) first tree) (h' : Reads (.chain operator) rest others) :
    ∃ joined, Reads (.chain operator) (first ++ .operator operator :: rest) joined ∧
      Alike joined (operator.schema [tree, others]) := by
  generalize hl : Level.chain operator = level at h
  induction h with
  | word | quoted | group | array => cases hl
  | lone h =>
    cases hl
    exact ⟨_, h.chain h', .refl _⟩
  | @chain _ _ _ head _ hh _ _ ih =>
    cases hl
    obtain ⟨joined, hr, ha⟩ := ih rfl
    have hf := (Alike.refl head).cons ha
    exact ⟨_, by simpa using hh.chain hr, hf.trans (.symm (.nested operator [] _ _))⟩

variable {schema : Schema}

/-- A chain of texts encodes the combination of their schemas. -/
theorem Encodes.chain {rest : String}
    {others : List Schema} (h : Encodes (.chain operator) text schema)
    (h' : Encodes (.chain operator) rest (operator.schema others)) :
    Encodes (.chain operator) (text ++ operator.separator ++ rest)
      (operator.schema (schema :: others)) := by
  obtain ⟨tokens, tree, hs, hr, ha⟩ := h
  obtain ⟨tokens', tree', hs', hr', ha'⟩ := h'
  obtain ⟨joined, hj, hsm⟩ := hr.join hr'
  refine ⟨_, joined, ?_, hj, hsm.trans (.cons ha ha')⟩
  have hb : begun ' ' = some ([], .nothing) := rfl
  have hm : begun operator.mark = some ([.operator operator], .nothing) := by
    cases operator <;> rfl
  have hrs := hs'.cons hb |>.cons hm |>.cons hb
  simpa [Operator.separator] using hs.append hrs (bounded_cons (by decide))

/-- The text encodes the schema at the level, and even as an operand if it has no blank. -/
def Written (level : Level) (text : String) (schema : Schema) : Prop :=
  Encodes level text schema ∧ (hasBlank text = false → Encodes .operand text schema)

theorem Encodes.condition (h : Encodes .operand text schema) : Written (.chain .both) text schema :=
  ⟨.lone .both h, fun _ => h⟩

theorem Written.alternative
    (h : Written (.chain .both) text schema) : Written (.chain .either) text schema :=
  ⟨.lone .either h.1, h.2⟩

/-- As a part of another definition, a text is an operand. -/
theorem Written.grouped
    (h : Written (.chain .either) text schema) : Encodes .operand (grouped text) schema := by
  rw [Arktype.grouped]
  split
  · exact h.1.group
  · exact h.2 (by simpa using ‹¬ hasBlank text = true›)

/-- Texts with an operator between them are a text for the combination of their schemas. -/
theorem Written.intercalate {texts : List String} {members : List Schema}
    (h : List.Forall₂ (Written (.chain operator)) texts members) (hn : texts ≠ []) :
    Written (.chain operator) (operator.separator.intercalate texts) (operator.schema members) := by
  induction h with
  | nil => exact absurd rfl hn
  | @cons text schema texts members h ht ih =>
    cases ht with
    | nil =>
      have hl := (Alike.lone operator schema).symm
      exact ⟨h.1.alike hl, fun hb => (h.2 hb).alike hl⟩
    | cons =>
      rw [String.intercalate_cons_cons]
      refine ⟨h.1.chain (ih (cons_ne_nil _ _)).1, fun hb => ?_⟩
      simp [hasBlank, Operator.separator] at hb

/-! ## Literals and words -/

/-- Whether a value is a text, a whole number or a truth value. -/
def isSimple : Value → Bool
  | .atom (.text _) | .atom (.int _) | .atom (.bool _) => true
  | _ => false

/-- All literals in the schema are such values. -/
def SimpleLiterals (schema : Schema) : Prop :=
  ∀ value, Schema.Part (.literal value) schema → isSimple value = true

theorem SimpleLiterals.of_part {part : Schema} (h : SimpleLiterals schema)
    (hp : Schema.Part part schema) : SimpleLiterals part :=
  fun value hv => h value (hv.trans hp)

theorem encodes_of_lookup (h : words.lookup text = some schema) : Encodes .operand text schema := by
  have hwr : words.all fun pair => pair.1 != "" && pair.1.toList.all isWordPart := by decide
  obtain ⟨before, after, hs, -⟩ := lookup_eq_some_iff.mp h
  have hw := all_eq_true.mp hwr (text, schema) (by simp [hs])
  rw [Bool.and_eq_true, bne_iff_ne, all_eq_true] at hw
  exact .word (by rw [wordSchema?, h]; rfl) hw.1 hw.2

/-- A number is read off its digits. -/
theorem natural?_toDigits (n : Nat) : natural? (Nat.toDigits 10 n) = some n := by
  have hd : ∀ c ∈ Nat.toDigits 10 n, c.isDigit := fun c =>
    Nat.isDigit_of_mem_toDigits (by decide) (by decide)
  have he : (Nat.toDigits 10 n).isEmpty = false := by
    rw [isEmpty_eq_false_iff]
    exact Nat.toDigits_ne_nil
  rw [natural?, he, all_eq_true.mpr hd, Nat.ofDigitChars_toDigits (by decide) (by decide)]
  rfl

/-- A whole number is read off its decimal form. -/
theorem wholeNumber?_toString (n : Int) : wholeNumber? (toString n).toList = some n := by
  have hr : toString n = n.repr := rfl
  rw [hr, Int.repr_eq_if]
  split
  · rename_i hn
    rw [Nat.toList_repr]
    unfold wholeNumber?
    split
    · rename_i digits hd
      have hs : '-' ∈ Nat.toDigits 10 n.toNat := hd ▸ mem_cons_self ..
      exact absurd (Nat.isDigit_of_mem_toDigits (by decide) (by decide) hs) (by decide)
    · rw [natural?_toDigits, Option.map_some, Int.toNat_of_nonneg hn]
  · have hl : ("-" ++ (-n).toNat.repr).toList = '-' :: Nat.toDigits 10 (-n).toNat := by
      rw [String.toList_append, Nat.toList_repr]
      rfl
    rw [hl, wholeNumber?, natural?_toDigits, Option.map_some, Int.toNat_of_nonneg (by omega),
      Int.neg_neg]

/-- The decimal form of a number is its text. -/
theorem encodes_int (n : Int) : Encodes .operand (toString n) (.literal (.atom (.int n))) := by
  have hn := isNumeral_toString n
  have hr := wholeNumber?_toString n
  have hl : words.lookup (toString n) = none := by
    have hw : ∀ pair ∈ words, isNumeral pair.1 = false := by decide
    rw [lookup_eq_none_iff]
    intro pair hpr
    rw [bne_iff_ne]
    rintro heq
    rw [heq, hw pair hpr] at hn
    cases hn
  refine .word (by rw [wordSchema?, hl, hr]; rfl) ?_ fun c hc => ?_
  · intro he
    rw [he] at hr
    cases hr
  · have hp := all_eq_true.mp hn c hc
    rw [Bool.or_eq_true] at hp
    rcases hp with hd | hs
    · simp [isWordPart, Char.isAlphanum, hd]
    · simp [isWordPart, hs]

/-- A literal has the text that is written for it. -/
theorem encodes_of_literalText? {value : Value} (hv : isSimple value)
    (h : literalText? value = .ok (some text)) : Encodes .operand text (.literal value) := by
  cases value with
  | atom atom =>
    cases atom with
    | text s =>
      unfold literalText? at h
      dsimp only at h
      split at h
      · cases h
      · rename_i hm
        cases h
        have hs : Scans ('\'' :: s.toList ++ ['\'']) [.quoted s] :=
          .quoted (by simpa using hm)
        exact ⟨_, _, by simpa using hs, .quoted, .refl _⟩
    | int n =>
      unfold literalText? at h
      dsimp only at h
      split at h
      · cases h
        exact encodes_int n
      · cases h
    | bool b =>
      cases h
      apply encodes_of_lookup
      cases b <;> rfl
    | _ => cases hv
  | _ => cases hv

/-! ## Reading back -/

mutual

/-- A text in the notation is a text for the schema. -/
theorem written_of_notated? {schema : Schema} {text : String} (hl : SimpleLiterals schema)
    (h : notated? schema = .ok (some text)) : Written (.chain .either) text schema := by
  match schema with
  | .string none =>
    cases h
    exact (encodes_of_lookup rfl).condition.alternative
  | .string (some format) =>
    cases format <;> cases h <;> exact (encodes_of_lookup rfl).condition.alternative
  | .number integer =>
    cases integer <;> cases h <;> exact (encodes_of_lookup rfl).condition.alternative
  | .keyword word =>
    cases word <;> cases h <;> exact (encodes_of_lookup rfl).condition.alternative
  | .literal value =>
    exact (encodes_of_literalText? (hl value .whole) h).condition.alternative
  | .array items =>
    obtain ⟨found, hf, h⟩ := of_bind_eq_ok h
    obtain ⟨inner, rfl, rfl⟩ := Option.map_eq_some_iff.mp (Except.ok.inj h)
    have hi := written_of_notated? (hl.of_part (.items .whole)) hf
    exact hi.grouped.array.condition.alternative
  | .union members =>
    obtain ⟨found, hf, h⟩ := of_bind_eq_ok h
    obtain ⟨texts, rfl, rfl⟩ := Option.map_eq_some_iff.mp (Except.ok.inj h)
    obtain ⟨ht, hn⟩ := forall₂_written_of_notatedAll?
      (fun member hm => hl.of_part (.alternative hm .whole)) hf
    exact Written.intercalate ht hn
  | .intersection members =>
    obtain ⟨found, hf, h⟩ := of_bind_eq_ok h
    obtain ⟨texts, rfl, rfl⟩ := Option.map_eq_some_iff.mp (Except.ok.inj h)
    obtain ⟨ht, hn⟩ := forall₂_written_of_notatedAll?
      (fun member hm => hl.of_part (.condition hm .whole)) hf
    have hg : List.Forall₂ (Written (.chain .both)) (texts.map grouped) members :=
      forall₂_map_left_iff.mpr (ht.imp fun _ _ htx => htx.grouped.condition)
    exact (Written.intercalate hg (mt map_eq_nil_iff.mp hn)).alternative
  | .object .. | .tuple _ | .record .. | .enumeration _ | .ref _ | .raw _ | .unsupported _ =>
    cases h

theorem forall₂_written_of_notatedAll? {schemas : List Schema} {texts : List String}
    (hl : ∀ schema ∈ schemas, SimpleLiterals schema)
    (h : notatedAll? schemas = .ok (some texts)) :
    List.Forall₂ (Written (.chain .either)) texts schemas ∧ texts ≠ [] := by
  match schemas with
  | [] =>
    cases h
  | [schema] =>
    obtain ⟨found, hfn, h⟩ := of_bind_eq_ok h
    obtain ⟨text, rfl, rfl⟩ := Option.map_eq_some_iff.mp (Except.ok.inj h)
    have ht := written_of_notated? (hl schema (mem_singleton_self _)) hfn
    exact ⟨.cons ht .nil, cons_ne_nil _ _⟩
  | schema :: second :: rest =>
    obtain ⟨first, hf, h⟩ := of_bind_eq_ok h
    obtain ⟨others, ho, h⟩ := of_bind_eq_ok h
    obtain ⟨text, rfl, hm⟩ := Option.bind_eq_some_iff.mp (Except.ok.inj h)
    obtain ⟨texts, rfl, rfl⟩ := Option.map_eq_some_iff.mp hm
    have ht := written_of_notated? (hl schema (mem_cons_self ..)) hf
    have htx := forall₂_written_of_notatedAll?
      (forall_mem_cons.mp hl).2 ho
    exact ⟨.cons ht htx.1, cons_ne_nil _ _⟩

end

/-- The text that defines a schema is read as the schema, up to how unions are nested in unions and
intersections in intersections; it has no other tree, and the tree accepts what the schema
accepts. -/
theorem notated_text_is_read_back {schema : Schema} {text : String}
    (hliterals : SimpleLiterals schema) (htext : notated? schema = .ok (some text)) :
    ∃ tree, read? text = some tree ∧ (∀ other, Denotes text other ↔ other = tree) ∧
      Alike tree schema ∧ ∀ catalog meaning value,
        Accepts catalog meaning tree value ↔ Accepts catalog meaning schema value := by
  obtain ⟨tokens, tree, hs, hr, ha⟩ := (written_of_notated? hliterals htext).1
  have hd : Denotes text tree := ⟨tokens, hs.scan_eq, hr⟩
  refine ⟨tree, hd.read?, fun other => ⟨fun ho => ?_, ?_⟩, ha, fun _ _ value =>
    ha.accepts_iff value⟩
  · exact Option.some.inj (ho.read?.symm.trans hd.read?)
  · rintro rfl
    exact hd

/-- A list of what is the text `a | b` or both an address and one of three. -/
def mixedSchema : Schema :=
  .array (.union [.literal (.atom (.text "a | b")), .intersection [.string (some .email),
    .union [.number true, .union [.literal (.atom (.int (-5))), .keyword .date]]]])

theorem mixedSchema_is_read_back :
    notated? mixedSchema = .ok (some "('a | b' | string.email & (number.integer | -5 | Date))[]") ∧
      ∃ tree, read? "('a | b' | string.email & (number.integer | -5 | Date))[]" = some tree ∧
        Alike tree mixedSchema := by
  have hn : literalText? (.atom (.int (-5))) = .ok (some "-5") := by
    unfold literalText?
    dsimp only
    rw [Atom.unwritable?, if_pos (by decide +kernel)]
    rfl
  have ht : notated? mixedSchema =
      .ok (some "('a | b' | string.email & (number.integer | -5 | Date))[]") := by
    simp only [mixedSchema, notated?, notatedAll?, hn]
    rfl
  have hl : SimpleLiterals mixedSchema := by
    intro value hp
    simp only [mixedSchema, Schema.part_array_iff, Schema.part_union_iff,
      Schema.part_intersection_iff, mem_cons, not_mem_nil, or_false, exists_eq_or_imp,
      exists_eq_left, reduceCtorEq, false_or] at hp
    rcases hp with h | h | h | h | h <;> cases h <;> rfl
  obtain ⟨tree, hr, -, ha, -⟩ := notated_text_is_read_back hl ht
  exact ⟨ht, tree, hr, ha⟩

end ApiSchema.Arktype
