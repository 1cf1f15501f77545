import Lexicon.Text.Split

/-!
# References

A reference names a definition of a document: `com.example.post#view`. The scheme `lex:` may stand
in front, the name of the definition is `main` where none is given, and `#view` alone means the
document that holds the reference.
-/

namespace Lexicon

/-- The definition `name` of the document `nsid`. An empty `nsid` stands for the document at
hand. -/
structure Reference where
  nsid : String
  name : String
  deriving DecidableEq, Repr, Inhabited

namespace Reference

def mainName : String := "main"

def withoutScheme : List Char → List Char
  | 'l' :: 'e' :: 'x' :: ':' :: rest => rest
  | cs => cs

def parse (text : String) : Reference :=
  let cs := withoutScheme text.toList
  match Text.cut? '#' cs with
  | none => ⟨String.ofList cs, mainName⟩
  | some (nsid, []) => ⟨String.ofList nsid, mainName⟩
  | some (nsid, name) => ⟨String.ofList nsid, String.ofList name⟩

def isLocal (r : Reference) : Bool := r.nsid.isEmpty

def within (r : Reference) (base : String) : Reference :=
  if r.isLocal then ⟨base, r.name⟩ else r

def text (r : Reference) : String := r.nsid ++ "#" ++ r.name

/-- The `$type` of objects of the definition: `main` is not written. -/
def discriminator (r : Reference) : String :=
  if r.name = mainName then r.nsid else r.text

@[simp] theorem within_of_local {r : Reference} (h : r.isLocal = true) (base : String) :
    r.within base = ⟨base, r.name⟩ := by simp [within, h]

@[simp] theorem within_of_not_local {r : Reference} (h : r.isLocal = false) (base : String) :
    r.within base = r := by simp [within, h]

theorem discriminator_main (nsid : String) : discriminator ⟨nsid, mainName⟩ = nsid := by
  simp [discriminator]

end Reference
end Lexicon
