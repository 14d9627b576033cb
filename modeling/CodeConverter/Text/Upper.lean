import CodeConverter.Text.Basic

/-!
# Upper and lower case

The upper case of a text is taken character by character. Most characters have one capital, which
lies at a fixed distance for whole runs of neighbours; a few expand to several characters. Both
tables are of Unicode 14. Folding a text makes texts alike that differ in the case of ASCII letters
only; some characters beyond ASCII count as the letters that they are a form of.
-/

namespace CodeConverter.Text

/-- The distance to the capital of the character at a place, given runs of characters with capitals:
the gap before a run, its length, and the distance for its characters. Characters at distance `-1`
alternate with their capitals. -/
def capitalDistance? : List (Nat × Nat × Int) → Nat → Option Int
  | [], _ => none
  | (gap, run, distance) :: rest, place =>
    if place < gap then none
    else if gap + run ≤ place then capitalDistance? rest (place - gap - run)
    else if distance = -1 && (place - gap) % 2 = 1 then none
    else some distance

/-- The runs of characters beyond ASCII with a single capital. -/
def caseRuns : List (Nat × Nat × Int) := [
  (53, 1, 743), (42, 23, -32), (1, 7, -32), (0, 1, 121), (1, 47, -1), (1, 1, -232), (1, 5, -1),
  (2, 15, -1), (2, 45, -1), (2, 5, -1), (0, 1, -300), (0, 1, 195), (2, 3, -1), (2, 1, -1),
  (3, 1, -1), (5, 1, -1), (2, 1, 97), (3, 1, -1), (0, 1, 163), (3, 1, 130), (2, 5, -1), (2, 1, -1),
  (4, 1, -1), (2, 1, -1), (3, 3, -1), (2, 1, -1), (3, 1, -1), (1, 1, 56), (5, 1, -1), (0, 1, -2),
  (1, 1, -1), (0, 1, -2), (1, 1, -1), (0, 1, -2), (1, 15, -1), (0, 1, -79), (1, 17, -1), (2, 1, -1),
  (0, 1, -2), (1, 1, -1), (3, 39, -1), (3, 17, -1), (8, 1, -1), (2, 2, 10815), (1, 1, -1),
  (4, 9, -1), (0, 1, 10783), (0, 1, 10780), (0, 1, 10782), (0, 1, -210), (0, 1, -206), (1, 2, -205),
  (1, 1, -202), (1, 1, -203), (0, 1, 42319), (3, 1, -205), (0, 1, 42315), (1, 1, -207),
  (1, 1, 42280), (0, 1, 42308), (1, 1, -209), (0, 1, -211), (0, 1, 42308), (0, 1, 10743),
  (0, 1, 42305), (2, 1, -211), (1, 1, 10749), (0, 1, -213), (2, 1, -214), (7, 1, 10727),
  (2, 1, -218), (1, 1, 42307), (0, 1, -218), (3, 1, 42282), (0, 1, -218), (0, 1, -69), (0, 2, -217),
  (0, 1, -71), (5, 1, -219), (10, 1, 42261), (0, 1, 42258), (166, 1, 84), (43, 3, -1), (3, 1, -1),
  (3, 3, 130), (46, 1, -38), (0, 3, -37), (1, 17, -32), (0, 1, -31), (0, 9, -32), (0, 1, -64),
  (0, 2, -63), (1, 1, -62), (0, 1, -57), (3, 1, -47), (0, 1, -54), (0, 1, -8), (1, 23, -1),
  (0, 1, -86), (0, 1, -80), (0, 1, 7), (0, 1, -116), (1, 1, -96), (2, 1, -1), (2, 1, -1),
  (52, 32, -32), (0, 16, -80), (1, 33, -1), (9, 53, -1), (2, 13, -1), (0, 1, -15), (1, 95, -1),
  (49, 38, -48), (2889, 43, 3008), (2, 3, 3008), (760, 6, -8), (2178, 1, -6254), (0, 1, -6253),
  (0, 1, -6244), (0, 2, -6242), (0, 1, -6243), (0, 1, -6236), (0, 1, -6181), (0, 1, 35266),
  (240, 1, 35332), (3, 1, 3814), (16, 1, 35384), (114, 149, -1), (5, 1, -59), (5, 95, -1),
  (0, 8, 8), (8, 6, 8), (10, 8, 8), (8, 8, 8), (8, 6, 8), (11, 1, 8), (1, 1, 8), (1, 1, 8),
  (1, 1, 8), (8, 8, 8), (8, 2, 74), (0, 4, 86), (0, 2, 100), (0, 2, 128), (0, 2, 112), (0, 2, 126),
  (50, 2, 8), (12, 1, -7205), (17, 2, 8), (14, 2, 8), (3, 1, 7), (360, 1, -28), (33, 16, -16),
  (4, 1, -1), (843, 26, -26), (1862, 48, -48), (1, 1, -1), (3, 1, -10795), (0, 1, -10792),
  (1, 5, -1), (6, 1, -1), (2, 1, -1), (10, 99, -1), (8, 3, -1), (4, 1, -1), (12, 38, -7264),
  (1, 1, -7264), (5, 1, -7264), (30995, 45, -1), (19, 27, -1), (135, 13, -1), (3, 61, -1),
  (10, 3, -1), (2, 9, -1), (4, 1, -1), (4, 3, -1), (0, 1, 48), (2, 19, -1), (11, 15, -1),
  (4, 3, -1), (6, 1, -1), (5, 3, -1), (28, 1, -1), (860, 1, -928), (28, 80, -38864),
  (21377, 26, -32), (1229, 40, -40), (136, 36, -40), (155, 11, -39), (1, 15, -39), (1, 7, -39),
  (1, 2, -39), (1795, 51, -64), (3021, 32, -32), (21888, 32, -32), (31394, 34, -34)]

/-- The characters whose upper case has several characters, but for those with an iota below a
breathing. -/
def expandedCapitals : List (Nat × List Nat) := [
  (0xdf, [0x53, 0x53]), (0x149, [0x2bc, 0x4e]), (0x1f0, [0x4a, 0x30c]),
  (0x390, [0x399, 0x308, 0x301]), (0x3b0, [0x3a5, 0x308, 0x301]), (0x587, [0x535, 0x552]),
  (0x1e96, [0x48, 0x331]), (0x1e97, [0x54, 0x308]), (0x1e98, [0x57, 0x30a]),
  (0x1e99, [0x59, 0x30a]), (0x1e9a, [0x41, 0x2be]), (0x1f50, [0x3a5, 0x313]),
  (0x1f52, [0x3a5, 0x313, 0x300]), (0x1f54, [0x3a5, 0x313, 0x301]), (0x1f56, [0x3a5, 0x313, 0x342]),
  (0x1fb2, [0x1fba, 0x399]), (0x1fb3, [0x391, 0x399]), (0x1fb4, [0x386, 0x399]),
  (0x1fb6, [0x391, 0x342]), (0x1fb7, [0x391, 0x342, 0x399]), (0x1fbc, [0x391, 0x399]),
  (0x1fc2, [0x1fca, 0x399]), (0x1fc3, [0x397, 0x399]), (0x1fc4, [0x389, 0x399]),
  (0x1fc6, [0x397, 0x342]), (0x1fc7, [0x397, 0x342, 0x399]), (0x1fcc, [0x397, 0x399]),
  (0x1fd2, [0x399, 0x308, 0x300]), (0x1fd3, [0x399, 0x308, 0x301]), (0x1fd6, [0x399, 0x342]),
  (0x1fd7, [0x399, 0x308, 0x342]), (0x1fe2, [0x3a5, 0x308, 0x300]), (0x1fe3, [0x3a5, 0x308, 0x301]),
  (0x1fe4, [0x3a1, 0x313]), (0x1fe6, [0x3a5, 0x342]), (0x1fe7, [0x3a5, 0x308, 0x342]),
  (0x1ff2, [0x1ffa, 0x399]), (0x1ff3, [0x3a9, 0x399]), (0x1ff4, [0x38f, 0x399]),
  (0x1ff6, [0x3a9, 0x342]), (0x1ff7, [0x3a9, 0x342, 0x399]), (0x1ffc, [0x3a9, 0x399]),
  (0xfb00, [0x46, 0x46]), (0xfb01, [0x46, 0x49]), (0xfb02, [0x46, 0x4c]),
  (0xfb03, [0x46, 0x46, 0x49]), (0xfb04, [0x46, 0x46, 0x4c]), (0xfb05, [0x53, 0x54]),
  (0xfb06, [0x53, 0x54]), (0xfb13, [0x544, 0x546]), (0xfb14, [0x544, 0x535]),
  (0xfb15, [0x544, 0x53b]), (0xfb16, [0x54e, 0x546]), (0xfb17, [0x544, 0x53d])]

/-- The capital of a letter, if it has several characters. -/
def expandedCapital? (code : Nat) : Option (List Nat) :=
  if 0x1f80 ≤ code && code < 0x1fb0 then
    some [[0x1f08, 0x1f28, 0x1f68].getD ((code - 0x1f80) / 16) 0 + code % 8, 0x399]
  else expandedCapitals.lookup code

/-- The capital of a letter. -/
def upperChar (c : Char) : Text :=
  if c.toNat < 0x80 then [c.toUpper]
  else match expandedCapital? c.toNat with
    | some codes => codes.map Char.ofNat
    | none =>
      match capitalDistance? caseRuns (c.toNat - 0x80) with
      | some distance => [Char.ofNat (c.toNat + distance).toNat]
      | none => [c]

/-- A text in capitals. -/
def upper (t : Text) : Text :=
  t.flatMap upperChar

/-- The characters beyond ASCII that count as ASCII letters. -/
def letterForms : List (Char × Text) := [
  ('ß', "ss"), ('ſ', "s"), ('ẞ', "ss"), ('\u212a', "k"), ('ﬀ', "ff"), ('ﬁ', "fi"), ('ﬂ', "fl"),
  ('ﬃ', "ffi"), ('ﬄ', "ffl"), ('ﬅ', "st"), ('ﬆ', "st")]

/-- The text with its letters in lower case and without special forms. -/
def fold (t : Text) : Text :=
  t.flatMap fun c => (letterForms.lookup c).getD [c.toLower]

end CodeConverter.Text
