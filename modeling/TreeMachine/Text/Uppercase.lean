/-!
# Upper case

The upper-case mapping of single characters in Unicode 17. A character whose upper case is more than
one character stays as it is.
-/

namespace TreeMachine.Text

/-- Runs `(first, number, offset)` of characters beyond ASCII whose upper case is at a distance. -/
def upperRuns : List (Nat × Nat × Int) := [
  (181, 1, 743), (224, 23, -32), (248, 7, -32), (255, 1, 121), (305, 1, -232), (383, 1, -300), (384, 1, 195),
  (405, 1, 97), (410, 1, 163), (411, 1, 42561), (414, 1, 130), (447, 1, 56), (454, 1, -2), (457, 1, -2),
  (460, 1, -2), (477, 1, -79), (499, 1, -2), (575, 2, 10815), (592, 1, 10783), (593, 1, 10780), (594, 1, 10782),
  (595, 1, -210), (596, 1, -206), (598, 2, -205), (601, 1, -202), (603, 1, -203), (604, 1, 42319), (608, 1, -205),
  (609, 1, 42315), (611, 1, -207), (612, 1, 42343), (613, 1, 42280), (614, 1, 42308), (616, 1, -209), (617, 1, -211),
  (618, 1, 42308), (619, 1, 10743), (620, 1, 42305), (623, 1, -211), (625, 1, 10749), (626, 1, -213), (629, 1, -214),
  (637, 1, 10727), (640, 1, -218), (642, 1, 42307), (643, 1, -218), (647, 1, 42282), (648, 1, -218), (649, 1, -69),
  (650, 2, -217), (652, 1, -71), (658, 1, -219), (669, 1, 42261), (670, 1, 42258), (837, 1, 84), (891, 3, 130),
  (940, 1, -38), (941, 3, -37), (945, 17, -32), (962, 1, -31), (963, 9, -32), (972, 1, -64), (973, 2, -63),
  (976, 1, -62), (977, 1, -57), (981, 1, -47), (982, 1, -54), (983, 1, -8), (1008, 1, -86), (1009, 1, -80),
  (1010, 1, 7), (1011, 1, -116), (1013, 1, -96), (1072, 32, -32), (1104, 16, -80), (1231, 1, -15), (1377, 38, -48),
  (4304, 43, 3008), (4349, 3, 3008), (5112, 6, -8), (7296, 1, -6254), (7297, 1, -6253), (7298, 1, -6244),
  (7299, 2, -6242), (7301, 1, -6243), (7302, 1, -6236), (7303, 1, -6181), (7304, 1, 35266), (7545, 1, 35332),
  (7549, 1, 3814), (7566, 1, 35384), (7835, 1, -59), (7936, 8, 8), (7952, 6, 8), (7968, 8, 8), (7984, 8, 8),
  (8000, 6, 8), (8017, 1, 8), (8019, 1, 8), (8021, 1, 8), (8023, 1, 8), (8032, 8, 8), (8048, 2, 74), (8050, 4, 86),
  (8054, 2, 100), (8056, 2, 128), (8058, 2, 112), (8060, 2, 126), (8064, 8, 8), (8080, 8, 8), (8096, 8, 8),
  (8112, 2, 8), (8115, 1, 9), (8126, 1, -7205), (8131, 1, 9), (8144, 2, 8), (8160, 2, 8), (8165, 1, 7), (8179, 1, 9),
  (8526, 1, -28), (8560, 16, -16), (9424, 26, -26), (11312, 48, -48), (11365, 1, -10795), (11366, 1, -10792),
  (11520, 38, -7264), (11559, 1, -7264), (11565, 1, -7264), (42900, 1, 48), (43859, 1, -928), (43888, 80, -38864),
  (65345, 26, -32), (66600, 40, -40), (66776, 36, -40), (66967, 11, -39), (66979, 15, -39), (66995, 7, -39),
  (67003, 2, -39), (68800, 51, -64), (68976, 22, -32), (71872, 32, -32), (93792, 32, -32), (93883, 25, -27),
  (125218, 34, -34)]

/-- Runs `(first, number)` in which every second character is the upper case of the one behind it. -/
def upperPairs : List (Nat × Nat) := [
  (257, 24), (307, 3), (314, 8), (331, 23), (378, 3), (387, 2), (392, 1), (396, 1), (402, 1), (409, 1), (417, 3),
  (424, 1), (429, 1), (432, 1), (436, 2), (441, 1), (445, 1), (453, 1), (456, 1), (459, 1), (462, 8), (479, 9),
  (498, 1), (501, 1), (505, 20), (547, 9), (572, 1), (578, 1), (583, 5), (881, 2), (887, 1), (985, 12), (1016, 1),
  (1019, 1), (1121, 17), (1163, 27), (1218, 7), (1233, 48), (7306, 1), (7681, 75), (7841, 48), (8580, 1), (11361, 1),
  (11368, 3), (11379, 1), (11382, 1), (11393, 50), (11500, 2), (11507, 1), (42561, 23), (42625, 14), (42787, 7),
  (42803, 31), (42874, 2), (42879, 5), (42892, 1), (42897, 2), (42903, 10), (42933, 8), (42952, 2), (42957, 8),
  (42998, 1)]

def upperChar (c : Char) : Char :=
  let n := c.toNat
  if n < 0x80 then c.toUpper
  else if upperPairs.any fun (first, number) => first ≤ n && n < first + 2 * number && (n - first) % 2 = 0 then
    Char.ofNat (n - 1)
  else
    match upperRuns.find? fun (first, number, _) => first ≤ n && n < first + number with
    | some (_, _, offset) => Char.ofNat (n + offset).toNat
    | none => c

def upper (s : String) : String := s.map upperChar

end TreeMachine.Text
