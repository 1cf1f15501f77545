import Lexicon.Proofs.Compile.Correctness
import Lexicon.Proofs.Compile.Effects
import Lexicon.Proofs.Compile.Errors

/-!
# Compilation does not depend on the address

A definition is compiled at `q` as it is at `p`, if what is given at and below `p` is given at and
below `q` (`Context.compileNode_moves`): both compilations take the same steps, the one at the
addresses to which those of the other are moved, and neither writes outside its own subtree.
-/

namespace Lexicon

open Address (Moves Within)
open Compile (Corresponds Effect)

namespace Compile

variable {p q : Address} {ctx : Context} {d : Definition}

theorem mirrors_compileNode (hp : p ≠ "") (hq : q ≠ "") (hscope : ctx.scope ≠ []) :
    Mirrors (Moves p q) (ctx.compileNode d p) (ctx.compileNode d q) := by
  rw [Context.compileNode_eq, Context.compileNode_eq]
  exact mirrors_nodeWith (mirrors_unbounded (closed_moves hp hq)) (fun _ => rfl) (.inl hscope)
    (Address.moves_base p q)

end Compile

namespace Context

theorem effect_compileNode {ctx : Context} {d : Definition} {p : Address} (hp : p ≠ "")
    (hscope : ctx.scope ≠ []) (t : Tables) :
    Effect (Within p) t ((ctx.compileNode d p).runOn t).2 :=
  ((Compile.mirrors_compileNode hp hp hscope).effect t).mono fun _ => Address.exists_moves_iff.mp

/-- Compilation is independent of where a definition sits: on tables that correspond, a definition
gives the same at both addresses, and the tables correspond afterwards. Neither compilation touches
anything outside the subtree of its address. -/
theorem compileNode_moves {ctx : Context} {x : Json} {d : Definition} {p q : Address}
    {t t' : Tables} (hd : Definition.ofJson x = .ok d)
    (hdict : Dictionary.All Document.Proper ctx.lexicons) (hregistry : ctx.registry = .builtin)
    (hscope : ctx.scope ≠ []) (hp : p ≠ "") (hq : q ≠ "")
    (ht : Corresponds (Moves p q) t t') :
    ((ctx.compileNode d p).runOn t).1 = ((ctx.compileNode d q).runOn t').1 ∧
      Corresponds (Moves p q) ((ctx.compileNode d p).runOn t).2 ((ctx.compileNode d q).runOn t').2 ∧
      Effect (Within p) t ((ctx.compileNode d p).runOn t).2 ∧
      Effect (Within q) t' ((ctx.compileNode d q).runOn t').2 := by
  obtain ⟨hresult, hafter⟩ :=
    (Compile.mirrors_compileNode (d := d) hp hq hscope).run (Address.moves_biUnique p q) ht
  refine ⟨?_, hafter, effect_compileNode hp hscope t, effect_compileNode hq hscope t'⟩
  generalize hleft : ((ctx.compileNode d p).runOn t).1 = left at hresult
  generalize ((ctx.compileNode d q).runOn t').1 = right at hresult
  cases hresult with
  | same => rfl
  | malformed _ _ =>
    -- Only such an error tells the addresses apart, and a definition that was read has none.
    have hproper : ∀ r e, ctx.lexicons.definition? r = some e → e.All Definition.Proper :=
      fun r e he => hdict.definition (fun doc hdoc => hdoc.proper) he
    exact (compileNode_error hregistry hproper (Definition.all_proper_of_ofJson hd) hleft).2.elim

def page : Definition := .object {
  required := ["file"]
  properties := [("file", .blob {}), ("photo", .ref { target := "app.photo" })] }

def inAlbum : Context where
  lexicons := [("app.photo", .photo)]
  scope := [⟨"app.album", "main"⟩]

def noted (file : Address) : Tables where
  options := .ofList [(file, { metadata? := some [("note", .string "front")] })]

theorem compileNode_moves_sample :
    ∃ v t t',
      (inAlbum.compileNode page "main").runOn (noted "main.file") = (.ok (some v), t) ∧
      (inAlbum.compileNode page "back.page").runOn (noted "back.page.file") = (.ok (some v), t') ∧
      (t.options.getD "main.file").required? = some true ∧
      t.options.get? "main.file" = t'.options.get? "back.page.file" ∧
      t.metadata.find? "main.file.$type" = t'.metadata.find? "back.page.file.$type" := by
  have hpage : Definition.ofJson (.object [
      ("type", .string "object"),
      ("required", .array [.string "file"]),
      ("properties", .object [
        ("file", .object [("type", .string "blob")]),
        ("photo", .object [("type", .string "ref"), ("ref", .string "app.photo")])])]) =
      .ok page := rfl
  have hgiven : Corresponds (Moves "main" "back.page") (noted "main.file")
      (noted "back.page.file") := by
    rintro _ _ ⟨s, _, rfl, rfl⟩
    have hleft : "main.file" = "main" ++ s ↔ ".file" = s :=
      @String.append_right_inj "main" ".file" s
    have hright : "back.page.file" = "back.page" ++ s ↔ ".file" = s :=
      @String.append_right_inj "back.page" ".file" s
    refine ⟨?_, rfl⟩
    simp only [noted, OptionTable.get?, OptionTable.ofList, OptionTable.insert, List.foldl,
      Entries.put, Entries.find?_cons, hleft, hright, Entries.find?_nil]
  have hdict : Dictionary.All Document.Proper inAlbum.lexicons :=
    Dictionary.all_singleton Document.proper_photo
  have hscope : inAlbum.scope ≠ [] := List.cons_ne_nil _ _
  obtain ⟨hresult, hafter, -, -⟩ :=
    compileNode_moves hpage hdict rfl hscope (by decide) (by decide) hgiven
  obtain ⟨v, t, hrun, hrequired⟩ : ∃ v t,
      (inAlbum.compileNode page "main").runOn (noted "main.file") = (.ok (some v), t) ∧
        (t.options.getD "main.file").required? = some true := ⟨_, _, rfl, rfl⟩
  cases hmoved : (inAlbum.compileNode page "back.page").runOn (noted "back.page.file") with
  | mk result t' =>
    rw [hrun, hmoved] at hresult hafter
    obtain rfl : .ok (some v) = result := hresult
    refine ⟨v, t, t', hrun, rfl, hrequired, ?_, ?_⟩
    · exact (hafter _ _ ⟨".file", .inr ⟨"file", rfl⟩, rfl, rfl⟩).1
    · exact (hafter _ _ ⟨".file.$type", .inr ⟨"file.$type", rfl⟩, rfl, rfl⟩).2

end Context
end Lexicon
