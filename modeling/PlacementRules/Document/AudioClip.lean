import PlacementRules.Document.LoadError
import PlacementRules.Json.Value

/-!
# Audio clips in documents

A scenario may name audio clips.  They are not kept, but a clip must be a path
with a known extension, so a wrong one is found when the scenario is loaded.
-/

namespace PlacementRules

namespace AudioClip

/-- The characters with the Unicode property `White_Space`. -/
def isWhiteSpace (c : Char) : Bool :=
  let code := c.toNat
  (0x09 ≤ code && code ≤ 0x0D) || code == 0x20 || code == 0x85 || code == 0xA0 ||
    code == 0x1680 || (0x2000 ≤ code && code ≤ 0x200A) || code == 0x2028 ||
    code == 0x2029 || code == 0x202F || code == 0x205F || code == 0x3000

def trim (text : List Char) : List Char :=
  ((text.dropWhile isWhiteSpace).reverse.dropWhile isWhiteSpace).reverse

def extensions : List String :=
  [".mp3", ".wav"]

/-- The path of a clip ends in a known extension, in any case of letters. -/
def isClipPath (path : String) : Bool :=
  let name := (trim path.toList).map Char.toLower
  extensions.any fun extension => extension.toList.isSuffixOf name

def isGood : Option Json → Bool
  | none | some .null => true
  | some (.string path) => isClipPath path
  | some _ => false

def require (field : String) (clip : Option Json) : Except LoadError Unit :=
  if isGood clip then .ok () else .error (.audioClip field)

def requireObject (field : String) (value : Json) : Except LoadError Unit :=
  if value.isObject then .ok () else .error (.wrongType field .object)

/-- Demand that a pair of clips, if it is there, holds two good ones. -/
def requirePair (field : String) : Option Json → Except LoadError Unit
  | none => .ok ()
  | some pair => do
      requireObject field pair
      require (field ++ ".pass") (pair.get? "pass")
      require (field ++ ".fail") (pair.get? "fail")

def requireManifest : Option Json → Except LoadError Unit
  | none => .ok ()
  | some audio => do
      requireObject "audio" audio
      require "audio.placement" (audio.get? "placement")
      requirePair "audio.aims" (audio.get? "aims")
      requirePair "audio.rulesets" (audio.get? "rulesets")

end AudioClip

end PlacementRules
