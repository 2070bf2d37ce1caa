/-
# Case tables

The case mappings of the character database, compressed into runs, and the two character classes
that decide the shape of a sigma at the end of a word.
-/
import ApiSchema.Text.CodeRange

namespace ApiSchema.Text

/-! ## Runs of characters that map alike -/

/-- The characters from `first` to `last` in steps of `step`; each maps to the character `delta`
places away. -/
structure CaseRun where
  first : Nat
  last : Nat
  step : Nat
  delta : Int

namespace CaseRun

def contains (run : CaseRun) (code : Nat) : Bool :=
  run.first ≤ code && code ≤ run.last && (code - run.first) % run.step == 0

def apply (run : CaseRun) (code : Nat) : Nat := ((code : Int) + run.delta).toNat

/-- Runs that are written as four numbers in turn: how far the first code point is behind `start`,
the first one of the run before; how far the last code point is behind the first; the step; the
difference. -/
def ofGaps (start : Int) : List Int → List CaseRun
  | gap :: more :: step :: delta :: rest =>
    ⟨(start + gap).toNat, (start + gap + more).toNat, step.toNat, delta⟩ ::
      ofGaps (start + gap) rest
  | _ => []

end CaseRun

/-! ## Mappings to a single character -/

def upperRuns : List CaseRun :=
  CaseRun.ofGaps 0
    [97, 25, 1, -32, 84, 0, 1, 743, 43, 22, 1, -32, 24, 6, 1, -32, 7, 0, 1, 121, 2, 46, 2, -1,
      48, 0, 1, -232, 2, 4, 2, -1, 7, 14, 2, -1, 17, 44, 2, -1, 47, 4, 2, -1, 5, 0, 1, -300,
      1, 0, 1, 195, 3, 2, 2, -1, 5, 0, 1, -1, 4, 0, 1, -1, 6, 0, 1, -1, 3, 0, 1, 97, 4, 0, 1, -1,
      1, 0, 1, 163, 4, 0, 1, 130, 3, 4, 2, -1, 7, 0, 1, -1, 5, 0, 1, -1, 3, 0, 1, -1, 4, 2, 2, -1,
      5, 0, 1, -1, 4, 0, 1, -1, 2, 0, 1, 56, 6, 0, 1, -1, 1, 0, 1, -2, 2, 0, 1, -1, 1, 0, 1, -2,
      2, 0, 1, -1, 1, 0, 1, -2, 2, 14, 2, -1, 15, 0, 1, -79, 2, 16, 2, -1, 19, 0, 1, -1,
      1, 0, 1, -2, 2, 0, 1, -1, 4, 38, 2, -1, 42, 16, 2, -1, 25, 0, 1, -1, 3, 1, 1, 10815,
      3, 0, 1, -1, 5, 8, 2, -1, 9, 0, 1, 10783, 1, 0, 1, 10780, 1, 0, 1, 10782, 1, 0, 1, -210,
      1, 0, 1, -206, 2, 1, 1, -205, 3, 0, 1, -202, 2, 0, 1, -203, 1, 0, 1, 42319, 4, 0, 1, -205,
      1, 0, 1, 42315, 2, 0, 1, -207, 2, 0, 1, 42280, 1, 0, 1, 42308, 2, 0, 1, -209, 1, 0, 1, -211,
      1, 0, 1, 42308, 1, 0, 1, 10743, 1, 0, 1, 42305, 3, 0, 1, -211, 2, 0, 1, 10749, 1, 0, 1, -213,
      3, 0, 1, -214, 8, 0, 1, 10727, 3, 0, 1, -218, 2, 0, 1, 42307, 1, 0, 1, -218, 4, 0, 1, 42282,
      1, 0, 1, -218, 1, 0, 1, -69, 1, 1, 1, -217, 2, 0, 1, -71, 6, 0, 1, -219, 11, 0, 1, 42261,
      1, 0, 1, 42258, 167, 0, 1, 84, 44, 2, 2, -1, 6, 0, 1, -1, 4, 2, 1, 130, 49, 0, 1, -38,
      1, 2, 1, -37, 4, 16, 1, -32, 17, 0, 1, -31, 1, 8, 1, -32, 9, 0, 1, -64, 1, 1, 1, -63,
      3, 0, 1, -62, 1, 0, 1, -57, 4, 0, 1, -47, 1, 0, 1, -54, 1, 0, 1, -8, 2, 22, 2, -1,
      23, 0, 1, -86, 1, 0, 1, -80, 1, 0, 1, 7, 1, 0, 1, -116, 2, 0, 1, -96, 3, 0, 1, -1,
      3, 0, 1, -1, 53, 31, 1, -32, 32, 15, 1, -80, 17, 32, 2, -1, 42, 52, 2, -1, 55, 12, 2, -1,
      13, 0, 1, -15, 2, 94, 2, -1, 144, 37, 1, -48, 2927, 42, 1, 3008, 45, 2, 1, 3008,
      763, 5, 1, -8, 2184, 0, 1, -6254, 1, 0, 1, -6253, 1, 0, 1, -6244, 1, 1, 1, -6242,
      2, 0, 1, -6243, 1, 0, 1, -6236, 1, 0, 1, -6181, 1, 0, 1, 35266, 241, 0, 1, 35332,
      4, 0, 1, 3814, 17, 0, 1, 35384, 115, 148, 2, -1, 154, 0, 1, -59, 6, 94, 2, -1, 95, 7, 1, 8,
      16, 5, 1, 8, 16, 7, 1, 8, 16, 7, 1, 8, 16, 5, 1, 8, 17, 6, 2, 8, 15, 7, 1, 8, 16, 1, 1, 74,
      2, 3, 1, 86, 4, 1, 1, 100, 2, 1, 1, 128, 2, 1, 1, 112, 2, 1, 1, 126, 52, 1, 1, 8,
      14, 0, 1, -7205, 18, 1, 1, 8, 16, 1, 1, 8, 5, 0, 1, 7, 361, 0, 1, -28, 34, 15, 1, -16,
      20, 0, 1, -1, 844, 25, 1, -26, 1888, 47, 1, -48, 49, 0, 1, -1, 4, 0, 1, -10795,
      1, 0, 1, -10792, 2, 4, 2, -1, 11, 0, 1, -1, 3, 0, 1, -1, 11, 98, 2, -1, 107, 2, 2, -1,
      7, 0, 1, -1, 13, 37, 1, -7264, 39, 0, 1, -7264, 6, 0, 1, -7264, 30996, 44, 2, -1,
      64, 26, 2, -1, 162, 12, 2, -1, 16, 60, 2, -1, 71, 2, 2, -1, 5, 8, 2, -1, 13, 0, 1, -1,
      5, 2, 2, -1, 3, 0, 1, 48, 3, 18, 2, -1, 30, 14, 2, -1, 19, 2, 2, -1, 9, 0, 1, -1, 6, 2, 2, -1,
      31, 0, 1, -1, 861, 0, 1, -928, 29, 79, 1, -38864, 21457, 25, 1, -32, 1255, 39, 1, -40,
      176, 35, 1, -40, 191, 10, 1, -39, 12, 14, 1, -39, 16, 6, 1, -39, 8, 1, 1, -39,
      1797, 50, 1, -64, 3072, 31, 1, -32, 21920, 31, 1, -32, 31426, 33, 1, -34]

def lowerRuns : List CaseRun :=
  CaseRun.ofGaps 0
    [65, 25, 1, 32, 127, 22, 1, 32, 24, 6, 1, 32, 40, 46, 2, 1, 50, 4, 2, 1, 7, 14, 2, 1,
      17, 44, 2, 1, 46, 0, 1, -121, 1, 4, 2, 1, 8, 0, 1, 210, 1, 2, 2, 1, 4, 0, 1, 206, 1, 0, 1, 1,
      2, 1, 1, 205, 2, 0, 1, 1, 3, 0, 1, 79, 1, 0, 1, 202, 1, 0, 1, 203, 1, 0, 1, 1, 2, 0, 1, 205,
      1, 0, 1, 207, 2, 0, 1, 211, 1, 0, 1, 209, 1, 0, 1, 1, 4, 0, 1, 211, 1, 0, 1, 213,
      2, 0, 1, 214, 1, 4, 2, 1, 6, 0, 1, 218, 1, 0, 1, 1, 2, 0, 1, 218, 3, 0, 1, 1, 2, 0, 1, 218,
      1, 0, 1, 1, 2, 1, 1, 217, 2, 2, 2, 1, 4, 0, 1, 219, 1, 0, 1, 1, 4, 0, 1, 1, 8, 0, 1, 2,
      1, 0, 1, 1, 2, 0, 1, 2, 1, 0, 1, 1, 2, 0, 1, 2, 1, 16, 2, 1, 19, 16, 2, 1, 19, 0, 1, 2,
      1, 2, 2, 1, 4, 0, 1, -97, 1, 0, 1, -56, 1, 38, 2, 1, 40, 0, 1, -130, 2, 16, 2, 1,
      24, 0, 1, 10795, 1, 0, 1, 1, 2, 0, 1, -163, 1, 0, 1, 10792, 3, 0, 1, 1, 2, 0, 1, -195,
      1, 0, 1, 69, 1, 0, 1, 71, 1, 8, 2, 1, 298, 2, 2, 1, 6, 0, 1, 1, 9, 0, 1, 116, 7, 0, 1, 38,
      2, 2, 1, 37, 4, 0, 1, 64, 2, 1, 1, 63, 3, 16, 1, 32, 18, 8, 1, 32, 44, 0, 1, 8, 9, 22, 2, 1,
      28, 0, 1, -60, 3, 0, 1, 1, 2, 0, 1, -7, 1, 0, 1, 1, 3, 2, 1, -130, 3, 15, 1, 80,
      16, 31, 1, 32, 80, 32, 2, 1, 42, 52, 2, 1, 54, 0, 1, 15, 1, 12, 2, 1, 15, 94, 2, 1,
      97, 37, 1, 48, 2927, 37, 1, 7264, 39, 0, 1, 7264, 6, 0, 1, 7264, 723, 79, 1, 38864,
      80, 5, 1, 8, 2208, 42, 1, -3008, 45, 2, 1, -3008, 323, 148, 2, 1, 158, 0, 1, -7615,
      2, 94, 2, 1, 104, 7, 1, -8, 16, 5, 1, -8, 16, 7, 1, -8, 16, 7, 1, -8, 16, 5, 1, -8,
      17, 6, 2, -8, 15, 7, 1, -8, 32, 7, 1, -8, 16, 7, 1, -8, 16, 7, 1, -8, 16, 1, 1, -8,
      2, 1, 1, -74, 2, 0, 1, -9, 12, 3, 1, -86, 4, 0, 1, -9, 12, 1, 1, -8, 2, 1, 1, -100,
      14, 1, 1, -8, 2, 1, 1, -112, 2, 0, 1, -7, 12, 1, 1, -128, 2, 1, 1, -126, 2, 0, 1, -9,
      298, 0, 1, -7517, 4, 0, 1, -8383, 1, 0, 1, -8262, 7, 0, 1, 28, 46, 15, 1, 16, 35, 0, 1, 1,
      819, 25, 1, 26, 1866, 47, 1, 48, 96, 0, 1, 1, 2, 0, 1, -10743, 1, 0, 1, -3814,
      1, 0, 1, -10727, 3, 4, 2, 1, 6, 0, 1, -10780, 1, 0, 1, -10749, 1, 0, 1, -10783,
      1, 0, 1, -10782, 2, 0, 1, 1, 3, 0, 1, 1, 9, 1, 1, -10815, 2, 98, 2, 1, 107, 2, 2, 1,
      7, 0, 1, 1, 31054, 44, 2, 1, 64, 26, 2, 1, 162, 12, 2, 1, 16, 60, 2, 1, 71, 2, 2, 1,
      4, 0, 1, -35332, 1, 8, 2, 1, 13, 0, 1, 1, 2, 0, 1, -42280, 3, 2, 2, 1, 6, 18, 2, 1,
      20, 0, 1, -42308, 1, 0, 1, -42319, 1, 0, 1, -42315, 1, 0, 1, -42305, 1, 0, 1, -42308,
      2, 0, 1, -42258, 1, 0, 1, -42282, 1, 0, 1, -42261, 1, 0, 1, 928, 1, 14, 2, 1, 16, 0, 1, -48,
      1, 0, 1, -42307, 1, 0, 1, -35384, 1, 2, 2, 1, 9, 0, 1, 1, 6, 2, 2, 1, 31, 0, 1, 1,
      22316, 25, 1, 32, 1247, 39, 1, 40, 176, 35, 1, 40, 192, 10, 1, 39, 12, 14, 1, 39,
      16, 6, 1, 39, 8, 1, 1, 39, 1772, 50, 1, 64, 3104, 31, 1, 32, 21920, 31, 1, 32,
      31424, 33, 1, 34]

/-- Characters whose one-character title-case form is not their upper-case form. -/
def titleRuns : List CaseRun :=
  CaseRun.ofGaps 0
    [452, 0, 1, 1, 1, 0, 1, 0, 1, 0, 1, -1, 1, 0, 1, 1, 1, 0, 1, 0, 1, 0, 1, -1, 1, 0, 1, 1,
      1, 0, 1, 0, 1, 0, 1, -1, 37, 0, 1, 1, 1, 0, 1, 0, 1, 0, 1, -1, 3805, 42, 1, 0, 45, 2, 1, 0,
      3715, 7, 1, 8, 8, 7, 1, 0, 8, 7, 1, 8, 8, 7, 1, 0, 8, 7, 1, 8, 8, 7, 1, 0, 11, 0, 1, 9,
      9, 0, 1, 0, 7, 0, 1, 9, 9, 0, 1, 0, 39, 0, 1, 9, 9, 0, 1, 0]

/-! ## Mappings to several characters -/

/-- Characters whose upper-case form has several characters. -/
def upperSpecials : List (Nat × List Nat) :=
  [(223, [83, 83]), (329, [700, 78]), (496, [74, 780]), (912, [921, 776, 769]),
    (944, [933, 776, 769]), (1415, [1333, 1362]), (7830, [72, 817]), (7831, [84, 776]),
    (7832, [87, 778]), (7833, [89, 778]), (7834, [65, 702]), (8016, [933, 787]),
    (8018, [933, 787, 768]), (8020, [933, 787, 769]), (8022, [933, 787, 834]), (8064, [7944, 921]),
    (8065, [7945, 921]), (8066, [7946, 921]), (8067, [7947, 921]), (8068, [7948, 921]),
    (8069, [7949, 921]), (8070, [7950, 921]), (8071, [7951, 921]), (8072, [7944, 921]),
    (8073, [7945, 921]), (8074, [7946, 921]), (8075, [7947, 921]), (8076, [7948, 921]),
    (8077, [7949, 921]), (8078, [7950, 921]), (8079, [7951, 921]), (8080, [7976, 921]),
    (8081, [7977, 921]), (8082, [7978, 921]), (8083, [7979, 921]), (8084, [7980, 921]),
    (8085, [7981, 921]), (8086, [7982, 921]), (8087, [7983, 921]), (8088, [7976, 921]),
    (8089, [7977, 921]), (8090, [7978, 921]), (8091, [7979, 921]), (8092, [7980, 921]),
    (8093, [7981, 921]), (8094, [7982, 921]), (8095, [7983, 921]), (8096, [8040, 921]),
    (8097, [8041, 921]), (8098, [8042, 921]), (8099, [8043, 921]), (8100, [8044, 921]),
    (8101, [8045, 921]), (8102, [8046, 921]), (8103, [8047, 921]), (8104, [8040, 921]),
    (8105, [8041, 921]), (8106, [8042, 921]), (8107, [8043, 921]), (8108, [8044, 921]),
    (8109, [8045, 921]), (8110, [8046, 921]), (8111, [8047, 921]), (8114, [8122, 921]),
    (8115, [913, 921]), (8116, [902, 921]), (8118, [913, 834]), (8119, [913, 834, 921]),
    (8124, [913, 921]), (8130, [8138, 921]), (8131, [919, 921]), (8132, [905, 921]),
    (8134, [919, 834]), (8135, [919, 834, 921]), (8140, [919, 921]), (8146, [921, 776, 768]),
    (8147, [921, 776, 769]), (8150, [921, 834]), (8151, [921, 776, 834]), (8162, [933, 776, 768]),
    (8163, [933, 776, 769]), (8164, [929, 787]), (8166, [933, 834]), (8167, [933, 776, 834]),
    (8178, [8186, 921]), (8179, [937, 921]), (8180, [911, 921]), (8182, [937, 834]),
    (8183, [937, 834, 921]), (8188, [937, 921]), (64256, [70, 70]), (64257, [70, 73]),
    (64258, [70, 76]), (64259, [70, 70, 73]), (64260, [70, 70, 76]), (64261, [83, 84]),
    (64262, [83, 84]), (64275, [1348, 1350]), (64276, [1348, 1333]), (64277, [1348, 1339]),
    (64278, [1358, 1350]), (64279, [1348, 1341])]

/-- Characters whose lower-case form has several characters. -/
def lowerSpecials : List (Nat × List Nat) :=
  [(304, [105, 775])]

/-- Characters whose title-case form has several characters and is not their upper-case form. -/
def titleSpecials : List (Nat × List Nat) :=
  [(223, [83, 115]), (1415, [1333, 1410]), (8114, [8122, 837]), (8116, [902, 837]),
    (8119, [913, 834, 837]), (8130, [8138, 837]), (8132, [905, 837]), (8135, [919, 834, 837]),
    (8178, [8186, 837]), (8180, [911, 837]), (8183, [937, 834, 837]), (64256, [70, 102]),
    (64257, [70, 105]), (64258, [70, 108]), (64259, [70, 102, 105]), (64260, [70, 102, 108]),
    (64261, [83, 116]), (64262, [83, 116]), (64275, [1348, 1398]), (64276, [1348, 1381]),
    (64277, [1348, 1387]), (64278, [1358, 1398]), (64279, [1348, 1389])]

/-! ## Classes around a sigma -/

/-- Characters that are passed over when looking for a cased neighbour. -/
def caseIgnorableRanges : List CodeRange :=
  CodeRange.ofGaps 0
    [39, 0, 6, 0, 11, 0, 35, 0, 1, 0, 71, 0, 4, 0, 1, 0, 4, 0, 2, 1, 503, 191, 4, 1, 4, 0, 9, 1,
      1, 0, 251, 6, 207, 0, 5, 0, 49, 44, 1, 0, 1, 1, 1, 1, 1, 0, 44, 0, 11, 5, 10, 10, 1, 0, 35, 0,
      10, 20, 16, 0, 101, 7, 1, 9, 1, 3, 33, 0, 1, 0, 30, 26, 91, 10, 58, 10, 4, 0, 2, 0, 24, 23,
      43, 2, 44, 0, 7, 1, 6, 7, 41, 57, 55, 0, 1, 0, 4, 7, 4, 0, 3, 6, 10, 1, 13, 0, 15, 0, 58, 0,
      4, 3, 8, 0, 20, 1, 26, 0, 2, 1, 57, 0, 4, 1, 4, 1, 2, 2, 3, 0, 30, 1, 3, 0, 11, 1, 57, 0,
      4, 4, 1, 1, 4, 0, 20, 1, 22, 5, 1, 0, 58, 0, 2, 0, 1, 3, 8, 0, 7, 1, 11, 1, 30, 0, 61, 0,
      12, 0, 50, 0, 3, 0, 55, 0, 1, 2, 5, 2, 1, 3, 7, 1, 11, 1, 29, 0, 58, 0, 2, 0, 6, 0, 5, 1,
      20, 1, 28, 1, 57, 1, 4, 3, 8, 0, 20, 1, 29, 0, 72, 0, 7, 2, 1, 0, 90, 0, 2, 6, 11, 8, 98, 0,
      2, 8, 9, 0, 1, 5, 74, 1, 27, 0, 1, 0, 1, 0, 55, 13, 1, 4, 1, 1, 5, 10, 1, 35, 9, 0, 102, 3,
      1, 5, 1, 1, 2, 1, 25, 1, 4, 2, 16, 3, 13, 0, 2, 1, 6, 0, 15, 0, 94, 0, 608, 2, 946, 2, 29, 1,
      30, 1, 30, 1, 64, 1, 1, 6, 8, 0, 2, 10, 3, 0, 5, 0, 45, 4, 51, 0, 65, 1, 34, 0, 118, 2, 4, 1,
      9, 0, 6, 2, 219, 1, 2, 0, 58, 0, 1, 6, 1, 0, 1, 0, 2, 7, 6, 9, 2, 0, 39, 0, 8, 30, 49, 3,
      48, 0, 1, 4, 1, 0, 5, 0, 40, 8, 12, 1, 32, 3, 2, 1, 1, 2, 56, 0, 1, 1, 3, 0, 1, 2, 58, 7,
      2, 1, 64, 5, 82, 2, 1, 12, 1, 6, 4, 0, 6, 0, 3, 1, 50, 62, 13, 0, 34, 100, 445, 0, 1, 2,
      11, 2, 13, 2, 13, 2, 13, 1, 12, 4, 8, 1, 10, 0, 2, 0, 2, 4, 49, 4, 1, 9, 1, 0, 13, 0, 16, 12,
      51, 32, 2955, 1, 113, 2, 125, 0, 15, 0, 96, 31, 47, 0, 469, 0, 36, 3, 3, 4, 5, 0, 93, 5,
      93, 2, 28438, 0, 1250, 5, 270, 0, 98, 3, 1, 9, 1, 0, 28, 3, 80, 1, 14, 33, 78, 0, 23, 2,
      103, 2, 3, 1, 8, 0, 3, 0, 4, 0, 25, 1, 5, 0, 151, 1, 26, 17, 13, 0, 38, 7, 25, 10, 46, 2,
      48, 0, 2, 3, 2, 1, 17, 0, 21, 1, 66, 5, 2, 1, 2, 1, 12, 0, 8, 0, 35, 0, 11, 0, 51, 0, 1, 2,
      2, 1, 5, 1, 1, 0, 27, 0, 14, 1, 5, 1, 1, 0, 100, 4, 9, 2, 121, 0, 2, 0, 4, 0, 20272, 0,
      147, 16, 573, 15, 3, 0, 12, 15, 34, 0, 2, 0, 169, 0, 7, 0, 6, 0, 11, 0, 35, 0, 1, 0, 47, 0,
      45, 1, 67, 0, 21, 2, 513, 0, 226, 0, 149, 4, 1029, 5, 1, 41, 1, 8, 582, 2, 1, 1, 5, 3, 40, 2,
      4, 0, 165, 1, 573, 3, 387, 1, 153, 10, 49, 3, 123, 0, 54, 14, 41, 0, 2, 1, 10, 2, 49, 3, 2, 1,
      2, 0, 4, 0, 10, 0, 50, 2, 36, 4, 1, 7, 62, 0, 12, 1, 52, 8, 10, 3, 2, 0, 95, 2, 2, 0, 1, 1,
      6, 0, 160, 0, 3, 7, 21, 1, 57, 1, 3, 0, 37, 6, 3, 4, 195, 7, 2, 2, 1, 0, 23, 0, 84, 5, 1, 0,
      4, 1, 1, 1, 238, 3, 6, 1, 1, 1, 27, 1, 85, 7, 2, 0, 1, 1, 106, 0, 1, 0, 2, 5, 1, 0, 101, 2,
      2, 3, 1, 4, 259, 8, 1, 1, 256, 1, 1, 0, 4, 0, 144, 3, 2, 1, 4, 0, 32, 9, 40, 5, 2, 3, 8, 0,
      9, 5, 2, 2, 46, 12, 1, 1, 406, 6, 1, 5, 1, 0, 82, 21, 2, 6, 1, 1, 1, 1, 122, 5, 3, 0, 1, 1,
      1, 6, 1, 0, 72, 1, 3, 0, 1, 0, 347, 1, 5435, 8, 14007, 4, 59, 6, 9, 3, 1035, 0, 63, 16, 64, 1,
      1, 1, 16395, 3, 1, 6, 1, 1, 3230, 1, 1, 3, 4700, 45, 2, 22, 544, 2, 9, 15, 2, 6, 30, 3,
      148, 2, 1979, 54, 4, 49, 8, 0, 14, 0, 22, 4, 1, 14, 1360, 6, 1, 16, 2, 6, 1, 1, 1, 4, 261, 13,
      368, 0, 61, 3, 1504, 6, 109, 7, 2735, 4, 789505, 0, 30, 95, 128, 239]

/-- Characters that have case and are not passed over. -/
def casedRanges : List CodeRange :=
  CodeRange.ofGaps 0
    [65, 25, 6, 25, 47, 0, 10, 0, 4, 0, 5, 22, 1, 30, 1, 194, 1, 3, 4, 207, 1, 26, 192, 3, 2, 1,
      3, 2, 1, 0, 6, 0, 1, 2, 1, 0, 1, 19, 1, 82, 1, 138, 8, 165, 1, 37, 9, 40, 2839, 37, 1, 0,
      5, 0, 2, 42, 2, 2, 672, 85, 2, 5, 2178, 8, 7, 42, 2, 2, 64, 43, 63, 12, 1, 33, 101, 277, 2, 5,
      2, 37, 2, 5, 2, 7, 1, 0, 1, 0, 1, 0, 1, 30, 2, 52, 1, 6, 1, 0, 3, 2, 1, 6, 3, 3, 2, 5, 4, 12,
      5, 2, 1, 6, 261, 0, 4, 0, 2, 9, 1, 0, 3, 4, 6, 0, 1, 0, 1, 0, 1, 3, 1, 5, 4, 0, 2, 3, 5, 4,
      4, 0, 17, 31, 3, 1, 817, 51, 1814, 123, 2, 102, 6, 3, 3, 1, 12, 37, 1, 0, 5, 0, 30994, 45,
      18, 27, 134, 77, 1, 22, 3, 3, 1, 58, 5, 1, 1, 0, 1, 4, 27, 1, 3, 0, 821, 42, 5, 8, 7, 79,
      20288, 6, 12, 4, 1033, 25, 6, 25, 1189, 79, 96, 35, 4, 35, 116, 10, 1, 14, 1, 6, 1, 1, 1, 10,
      1, 14, 1, 6, 1, 1, 1731, 50, 13, 50, 2989, 63, 21856, 63, 25984, 84, 1, 70, 1, 1, 2, 0, 2, 1,
      2, 3, 1, 11, 1, 0, 1, 6, 1, 64, 1, 3, 2, 7, 1, 6, 1, 27, 1, 3, 1, 4, 1, 0, 3, 6, 1, 339,
      2, 24, 1, 24, 1, 30, 1, 24, 1, 30, 1, 24, 1, 30, 1, 24, 1, 30, 1, 24, 1, 7, 1844, 9, 1, 19,
      2529, 67, 2028, 25, 6, 25, 6, 25]

end ApiSchema.Text
