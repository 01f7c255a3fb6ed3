import PipelineScript.Regex.Ranges

/-!
Characters that differ in case only.

The table lists pairs of characters as runs: `(first, last, step, distance)` pairs every `step`th
code point from `first` to `last` with the one `distance` behind it. Where three or more
characters differ in case only, every two of them are a pair.
-/
namespace PipelineScript.Regex

/-- Runs of pairs of characters that differ in case only, by their first code point. -/
def caseRuns : List (Nat × Nat × Nat × Nat) :=
  [(0x41, 0x5a, 1, 32), (0x4b, 0x4b, 1, 8415), (0x53, 0x53, 1, 300), (0x6b, 0x6b, 1, 8383),
   (0x73, 0x73, 1, 268), (0xb5, 0xb5, 1, 743), (0xb5, 0xb5, 1, 775), (0xc0, 0xd6, 1, 32),
   (0xc5, 0xc5, 1, 8294), (0xd8, 0xde, 1, 32), (0xdf, 0xdf, 1, 7615), (0xe5, 0xe5, 1, 8262),
   (0xff, 0xff, 1, 121), (0x100, 0x12e, 2, 1), (0x132, 0x136, 2, 1), (0x139, 0x147, 2, 1),
   (0x14a, 0x176, 2, 1), (0x179, 0x17d, 2, 1), (0x180, 0x180, 1, 195), (0x181, 0x181, 1, 210),
   (0x182, 0x184, 2, 1), (0x186, 0x186, 1, 206), (0x187, 0x18b, 4, 1), (0x189, 0x18a, 1, 205),
   (0x18e, 0x18e, 1, 79), (0x18f, 0x18f, 1, 202), (0x190, 0x190, 1, 203), (0x191, 0x191, 1, 1),
   (0x193, 0x193, 1, 205), (0x194, 0x194, 1, 207), (0x195, 0x195, 1, 97), (0x196, 0x196, 1, 211),
   (0x197, 0x197, 1, 209), (0x198, 0x198, 1, 1), (0x19a, 0x19a, 1, 163), (0x19b, 0x19b, 1, 42561),
   (0x19c, 0x19c, 1, 211), (0x19d, 0x19d, 1, 213), (0x19e, 0x19e, 1, 130), (0x19f, 0x19f, 1, 214),
   (0x1a0, 0x1a4, 2, 1), (0x1a6, 0x1a6, 1, 218), (0x1a7, 0x1a7, 1, 1), (0x1a9, 0x1a9, 1, 218),
   (0x1ac, 0x1ac, 1, 1), (0x1ae, 0x1ae, 1, 218), (0x1af, 0x1b3, 4, 1), (0x1b1, 0x1b2, 1, 217),
   (0x1b5, 0x1b5, 1, 1), (0x1b7, 0x1b7, 1, 219), (0x1b8, 0x1bc, 4, 1), (0x1bf, 0x1bf, 1, 56),
   (0x1c4, 0x1c5, 1, 1), (0x1c4, 0x1c4, 1, 2), (0x1c7, 0x1db, 4, 1), (0x1c7, 0x1c7, 1, 2),
   (0x1c8, 0x1ca, 2, 1), (0x1ca, 0x1ca, 1, 2), (0x1cd, 0x1d9, 4, 1), (0x1de, 0x1ee, 2, 1),
   (0x1f1, 0x1f2, 1, 1), (0x1f1, 0x1f1, 1, 2), (0x1f4, 0x21c, 4, 1), (0x1fa, 0x232, 4, 1),
   (0x224, 0x230, 4, 1), (0x23a, 0x23a, 1, 10795), (0x23b, 0x23b, 1, 1), (0x23e, 0x23e, 1, 10792),
   (0x23f, 0x240, 1, 10815), (0x241, 0x241, 1, 1), (0x244, 0x244, 1, 69), (0x245, 0x245, 1, 71),
   (0x246, 0x24e, 2, 1), (0x250, 0x250, 1, 10783), (0x251, 0x251, 1, 10780),
   (0x252, 0x252, 1, 10782), (0x25c, 0x25c, 1, 42319), (0x261, 0x261, 1, 42315),
   (0x264, 0x264, 1, 42343), (0x265, 0x265, 1, 42280), (0x266, 0x26a, 4, 42308),
   (0x26b, 0x26b, 1, 10743), (0x26c, 0x26c, 1, 42305), (0x271, 0x271, 1, 10749),
   (0x27d, 0x27d, 1, 10727), (0x282, 0x282, 1, 42307), (0x287, 0x287, 1, 42282),
   (0x29d, 0x29d, 1, 42261), (0x29e, 0x29e, 1, 42258), (0x345, 0x345, 1, 84),
   (0x345, 0x345, 1, 116), (0x345, 0x345, 1, 7289), (0x370, 0x372, 2, 1), (0x376, 0x376, 1, 1),
   (0x37b, 0x37d, 1, 130), (0x37f, 0x37f, 1, 116), (0x386, 0x386, 1, 38), (0x388, 0x38a, 1, 37),
   (0x38c, 0x38c, 1, 64), (0x38e, 0x38f, 1, 63), (0x390, 0x390, 1, 7235), (0x391, 0x3a1, 1, 32),
   (0x392, 0x392, 1, 62), (0x395, 0x395, 1, 96), (0x398, 0x398, 1, 57), (0x398, 0x398, 1, 92),
   (0x399, 0x399, 1, 7205), (0x39a, 0x39a, 1, 86), (0x3a0, 0x3a0, 1, 54), (0x3a1, 0x3a1, 1, 80),
   (0x3a3, 0x3a3, 1, 31), (0x3a3, 0x3ab, 1, 32), (0x3a6, 0x3a6, 1, 47), (0x3a9, 0x3a9, 1, 7549),
   (0x3b0, 0x3b0, 1, 7219), (0x3b2, 0x3b2, 1, 30), (0x3b5, 0x3b5, 1, 64), (0x3b8, 0x3b8, 1, 25),
   (0x3b8, 0x3b8, 1, 60), (0x3b9, 0x3b9, 1, 7173), (0x3ba, 0x3ba, 1, 54), (0x3c0, 0x3c0, 1, 22),
   (0x3c1, 0x3c1, 1, 48), (0x3c2, 0x3c2, 1, 1), (0x3c6, 0x3c6, 1, 15), (0x3c9, 0x3c9, 1, 7517),
   (0x3cf, 0x3cf, 1, 8), (0x3d1, 0x3d1, 1, 35), (0x3d8, 0x3ee, 2, 1), (0x3f2, 0x3f2, 1, 7),
   (0x3f7, 0x3f7, 1, 1), (0x3fa, 0x3fa, 1, 1), (0x400, 0x40f, 1, 80), (0x410, 0x42f, 1, 32),
   (0x412, 0x412, 1, 6254), (0x414, 0x414, 1, 6253), (0x41e, 0x41e, 1, 6244),
   (0x421, 0x422, 1, 6242), (0x422, 0x422, 1, 6243), (0x42a, 0x42a, 1, 6236),
   (0x432, 0x432, 1, 6222), (0x434, 0x434, 1, 6221), (0x43e, 0x43e, 1, 6212),
   (0x441, 0x442, 1, 6210), (0x442, 0x442, 1, 6211), (0x44a, 0x44a, 1, 6204),
   (0x460, 0x480, 2, 1), (0x462, 0x462, 1, 6181), (0x463, 0x463, 1, 6180), (0x48a, 0x4be, 2, 1),
   (0x4c0, 0x4c0, 1, 15), (0x4c1, 0x4cd, 2, 1), (0x4d0, 0x52e, 2, 1), (0x531, 0x556, 1, 48),
   (0x10a0, 0x10c5, 1, 7264), (0x10c7, 0x10c7, 1, 7264), (0x10cd, 0x10cd, 1, 7264),
   (0x10d0, 0x10fa, 1, 3008), (0x10fd, 0x10ff, 1, 3008), (0x13a0, 0x13ef, 1, 38864),
   (0x13f0, 0x13f5, 1, 8), (0x1c84, 0x1c84, 1, 1), (0x1c88, 0x1c88, 1, 35266),
   (0x1c88, 0x1c88, 1, 35267), (0x1c89, 0x1c89, 1, 1), (0x1d79, 0x1d79, 1, 35332),
   (0x1d7d, 0x1d7d, 1, 3814), (0x1d8e, 0x1d8e, 1, 35384), (0x1e00, 0x1e94, 2, 1),
   (0x1e60, 0x1e60, 1, 59), (0x1e61, 0x1e61, 1, 58), (0x1ea0, 0x1efe, 2, 1),
   (0x1f00, 0x1f07, 1, 8), (0x1f10, 0x1f15, 1, 8), (0x1f20, 0x1f27, 1, 8), (0x1f30, 0x1f37, 1, 8),
   (0x1f40, 0x1f45, 1, 8), (0x1f51, 0x1f57, 2, 8), (0x1f60, 0x1f67, 1, 8),
   (0x1f70, 0x1f71, 1, 74), (0x1f72, 0x1f75, 1, 86), (0x1f76, 0x1f77, 1, 100),
   (0x1f78, 0x1f79, 1, 128), (0x1f7a, 0x1f7b, 1, 112), (0x1f7c, 0x1f7d, 1, 126),
   (0x1f80, 0x1f87, 1, 8), (0x1f90, 0x1f97, 1, 8), (0x1fa0, 0x1fa7, 1, 8), (0x1fb0, 0x1fb1, 1, 8),
   (0x1fb3, 0x1fb3, 1, 9), (0x1fc3, 0x1fc3, 1, 9), (0x1fd0, 0x1fd1, 1, 8), (0x1fe0, 0x1fe1, 1, 8),
   (0x1fe5, 0x1fe5, 1, 7), (0x1ff3, 0x1ff3, 1, 9), (0x2132, 0x2132, 1, 28),
   (0x2160, 0x216f, 1, 16), (0x2183, 0x2183, 1, 1), (0x24b6, 0x24cf, 1, 26),
   (0x2c00, 0x2c2f, 1, 48), (0x2c60, 0x2c60, 1, 1), (0x2c67, 0x2c6b, 2, 1),
   (0x2c72, 0x2c72, 1, 1), (0x2c75, 0x2c75, 1, 1), (0x2c80, 0x2ce2, 2, 1), (0x2ceb, 0x2ced, 2, 1),
   (0x2cf2, 0x2cf2, 1, 1), (0xa640, 0xa66c, 2, 1), (0xa680, 0xa69a, 2, 1), (0xa722, 0xa76e, 4, 1),
   (0xa724, 0xa72c, 4, 1), (0xa734, 0xa76c, 4, 1), (0xa779, 0xa77b, 2, 1), (0xa77e, 0xa786, 2, 1),
   (0xa78b, 0xa78b, 1, 1), (0xa790, 0xa792, 2, 1), (0xa794, 0xa794, 1, 48),
   (0xa796, 0xa7a8, 2, 1), (0xa7b3, 0xa7b3, 1, 928), (0xa7b4, 0xa7c2, 2, 1),
   (0xa7c7, 0xa7c9, 2, 1), (0xa7cc, 0xa7d0, 4, 1), (0xa7d6, 0xa7da, 2, 1), (0xa7f5, 0xa7f5, 1, 1),
   (0xfb05, 0xfb05, 1, 1), (0xff21, 0xff3a, 1, 32), (0x10400, 0x10427, 1, 40),
   (0x104b0, 0x104d3, 1, 40), (0x10570, 0x10594, 2, 39), (0x10571, 0x10595, 4, 39),
   (0x10573, 0x10577, 4, 39), (0x1057f, 0x10587, 4, 39), (0x1058f, 0x1058f, 1, 39),
   (0x10c80, 0x10cb2, 1, 64), (0x10d50, 0x10d65, 1, 32), (0x118a0, 0x118bf, 1, 32),
   (0x16e40, 0x16e5f, 1, 32), (0x1e900, 0x1e921, 1, 34)]

/-- Whether a code point is the first of a pair in the run. -/
def opensPair (run : Nat × Nat × Nat × Nat) (code : Nat) : Bool :=
  match run with
  | (first, last, step, _) =>
    decide (first ≤ code) && decide (code ≤ last) && (code - first) % step == 0

/-- The code points that differ from one in case only. -/
def caseVariants (code : Nat) : List Nat :=
  caseRuns.flatMap fun run =>
    let distance := run.2.2.2
    (if opensPair run code then [code + distance] else []) ++
      (if distance ≤ code ∧ opensPair run (code - distance) then [code - distance] else [])

/-- Adds to `result` what the pairs of a run add to a set. -/
def addPairs (set : Ranges) (run : Nat × Nat × Nat × Nat) (result : Ranges) : Ranges :=
  match run with
  | (first, last, step, distance) =>
    (List.range ((last - first) / step + 1)).foldl
      (fun result i =>
        let code := first + step * i
        let result :=
          if set.contains code then result.insert (code + distance) (code + distance) else result
        if set.contains (code + distance) then result.insert code code else result)
      result

/-- The set with all case variants of its characters. -/
def Ranges.caseless (set : Ranges) : Ranges :=
  caseRuns.foldl (fun result run => addPairs set run result) set

end PipelineScript.Regex
