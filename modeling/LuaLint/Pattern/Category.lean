import LuaLint.Text.Bytes

/-!
# Properties of characters

The general categories and some scripts by which a pattern can name a set of characters. Patterns
are matched against names in Lua sources, so only characters up to U+00FF are told apart: all others
are taken to have none of these properties.
-/

namespace LuaLint.Category

/-- The categories with their characters up to U+00FF. -/
def table : List (String × List (Nat × Nat)) :=
  [("Cc", [(0x00, 0x1F), (0x7F, 0x9F)]),
   ("Cf", [(0xAD, 0xAD)]),
   ("Co", []),
   ("Cs", []),
   ("Ll", [(0x61, 0x7A), (0xB5, 0xB5), (0xDF, 0xF6), (0xF8, 0xFF)]),
   ("Lm", []),
   ("Lo", [(0xAA, 0xAA), (0xBA, 0xBA)]),
   ("Lt", []),
   ("Lu", [(0x41, 0x5A), (0xC0, 0xD6), (0xD8, 0xDE)]),
   ("Mc", []),
   ("Me", []),
   ("Mn", []),
   ("Nd", [(0x30, 0x39)]),
   ("Nl", []),
   ("No", [(0xB2, 0xB3), (0xB9, 0xB9), (0xBC, 0xBE)]),
   ("Pc", [(0x5F, 0x5F)]),
   ("Pd", [(0x2D, 0x2D)]),
   ("Pe", [(0x29, 0x29), (0x5D, 0x5D), (0x7D, 0x7D)]),
   ("Pf", [(0xBB, 0xBB)]),
   ("Pi", [(0xAB, 0xAB)]),
   ("Po", [(0x21, 0x23), (0x25, 0x27), (0x2A, 0x2A), (0x2C, 0x2C), (0x2E, 0x2F), (0x3A, 0x3B),
     (0x3F, 0x40), (0x5C, 0x5C), (0xA1, 0xA1), (0xA7, 0xA7), (0xB6, 0xB7), (0xBF, 0xBF)]),
   ("Ps", [(0x28, 0x28), (0x5B, 0x5B), (0x7B, 0x7B)]),
   ("Sc", [(0x24, 0x24), (0xA2, 0xA5)]),
   ("Sk", [(0x5E, 0x5E), (0x60, 0x60), (0xA8, 0xA8), (0xAF, 0xAF), (0xB4, 0xB4), (0xB8, 0xB8)]),
   ("Sm", [(0x2B, 0x2B), (0x3C, 0x3E), (0x7C, 0x7C), (0x7E, 0x7E), (0xAC, 0xAC), (0xB1, 0xB1),
     (0xD7, 0xD7), (0xF7, 0xF7)]),
   ("So", [(0xA6, 0xA6), (0xA9, 0xA9), (0xAE, 0xAE), (0xB0, 0xB0)]),
   ("Zl", []),
   ("Zp", []),
   ("Zs", [(0x20, 0x20), (0xA0, 0xA0)])]

/-- The scripts with their characters up to U+00FF. -/
def scripts : List (String × List (Nat × Nat)) :=
  let latin := [(0x41, 0x5A), (0x61, 0x7A), (0xAA, 0xAA), (0xBA, 0xBA), (0xC0, 0xD6), (0xD8, 0xF6),
    (0xF8, 0xFF)]
  let shared := [(0x00, 0x40), (0x5B, 0x60), (0x7B, 0xA9), (0xAB, 0xB9), (0xBB, 0xBF), (0xD7, 0xD7),
    (0xF7, 0xF7)]
  [("Latin", latin), ("Common", shared)] ++
    ["Arabic", "Armenian", "Bengali", "Bopomofo", "Braille", "Cherokee", "Cyrillic", "Devanagari",
     "Ethiopic", "Georgian", "Greek", "Gujarati", "Gurmukhi", "Han", "Hangul", "Hebrew", "Hiragana",
     "Inherited", "Kannada", "Katakana", "Khmer", "Lao", "Malayalam", "Mongolian", "Myanmar",
     "Sinhala", "Syriac", "Tamil", "Telugu", "Thaana", "Thai", "Tibetan", "Yi"].map fun name =>
      (name, [])

/-- The characters with the property of a name. A single letter names all categories that begin with
it. -/
def ranges? (name : String) : Option (List (Nat × Nat)) :=
  if name == "Any" then some [(0, 0x10FFFF)]
  else match (table ++ scripts).find? fun entry => entry.1 == name with
    | some entry => some entry.2
    | none =>
      let members := table.filter fun entry => String.ofList (entry.1.toList.take 1) == name
      if members.isEmpty then none else some (members.flatMap Prod.snd)

end LuaLint.Category
