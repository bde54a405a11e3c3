import StringDiagram.Store.Text
import StringDiagram.Proofs.Store.Matched

/-! # Texts that last

What can be written can be written in the same way when more is known about the objects. The text of a row
therefore stays when the store grows: `Writable.grows`. -/
namespace StringDiagram

def Extends {α : Type} (x y : Except Fault α) : Prop := ∀ a, x = .ok a → y = .ok a

namespace Extends
variable {α β : Type} {x y : Except Fault α} {f g : α → Except Fault β}

theorem refl (x : Except Fault α) : Extends x x := fun _ h => h

theorem error (e : Fault) (y : Except Fault α) : Extends (.error e) y := fun _ h => nomatch h

theorem bind (hx : Extends x y) (hf : ∀ a, Extends (f a) (g a)) : Extends (x >>= f) (y >>= g) := by
  intro b h
  obtain ⟨a, ha, hb⟩ := bind_eq_ok.mp h
  exact bind_eq_ok.mpr ⟨a, hx a ha, hf a b hb⟩

theorem bind_pure (hx : Extends x y) (f : α → Except Fault β) : Extends (x >>= f) (y >>= f) :=
  hx.bind fun a => refl (f a)

end Extends

structure ObjectTexts.Le (o o' : ObjectTexts) : Prop where
  text : ∀ form r, Extends (o.text form r) (o'.text form r)
  name : ∀ r, Extends (o.name r) (o'.name r)

namespace Value
variable {o o' : ObjectTexts}

mutual

theorem shown_mono (h : o.Le o') : ∀ (form : Form) (v : Value), Extends (shown o form v) (shown o' form v)
  | _, .list vs => by
    simp only [shown]
    exact (shownAll_mono h .quoted vs).bind_pure _
  | _, .tuple vs => by
    simp only [shown]
    exact (shownAll_mono h .quoted vs).bind_pure _
  | _, .product vs => by
    simp only [shown]
    exact (shownAll_mono h .plain vs).bind_pure _
  | .plain, .row vs => by
    simp only [shown]
    exact (shownAll_mono h .plain vs).bind_pure _
  | .quoted, .row vs => by
    simp only [shown]
    exact (shownAll_mono h .quoted vs).bind_pure _
  | _, .connector b k p => by
    simp only [shown]
    exact (shown_mono h .plain b).bind fun _ => (shownName_mono h k).bind fun _ =>
      (shown_mono h .plain p).bind_pure _
  | _, .wire s t => by
    simp only [shown]
    exact (shown_mono h .plain s).bind fun _ => (shown_mono h .plain t).bind_pure _
  | _, .hom n ds cs => by
    simp only [shown]
    exact (shown_mono h .plain n).bind fun _ => (shownAll_mono h .plain ds).bind fun _ =>
      (shownAll_mono h .plain cs).bind_pure _
  | _, .atomic e => by
    simp only [shown]
    exact (shown_mono h .quoted e).bind_pure _
  | form, .ref r => by
    simp only [shown]
    exact h.text form r
  | _, .operation v _ => by
    simp only [shown]
    exact (shown_mono h .quoted v).bind_pure _
  | _, .null | _, .truth _ | _, .int _ | .plain, .text _ | .quoted, .text _ | _, .object _ | .plain, .side _
  | .quoted, .side _ | _, .palette _ => by
    simp only [shown]
    exact .refl _

theorem shownAll_mono (h : o.Le o') :
    ∀ (form : Form) (vs : List Value), Extends (shownAll o form vs) (shownAll o' form vs)
  | _, [] => by
    simp only [shownAll]
    exact .refl _
  | form, v :: vs => by
    simp only [shownAll]
    exact (shown_mono h form v).bind fun _ => (shownAll_mono h form vs).bind_pure _

theorem shownName_mono (h : o.Le o') : ∀ v : Value, Extends (shownName o v) (shownName o' v)
  | .hom n _ _ => by
    simp only [shownName]
    exact shown_mono h .plain n
  | .atomic e => by
    simp only [shownName]
    exact (shown_mono h .quoted e).bind_pure _
  | .ref r => by
    simp only [shownName]
    exact h.name r
  | .object _ | .side _ | .null | .truth _ | .int _ | .text _ | .list _ | .tuple _ | .product _ | .row _
  | .connector _ _ _ | .wire _ _ | .palette _ | .operation _ _ => by
    simp only [shownName]
    exact .refl _

end

theorem shownAll_append (o : ObjectTexts) (form : Form) (vs ws : List Value) :
    shownAll o form (vs ++ ws) = do
      let texts ← shownAll o form vs
      let texts' ← shownAll o form ws
      return texts ++ texts' := by
  induction vs with
  | nil => cases h : shownAll o form ws <;> simp [shownAll, h, bind, Except.bind, pure, Except.pure]
  | cons v vs ih => simp [shownAll, ih]

end Value

namespace Store
variable {s t : Store} {as bs : List Value} {d : Diagram}

theorem nameWith_mono {o o' : ObjectTexts} (h : o.Le o') (d : Diagram) :
    Extends (d.nameWith o) (d.nameWith o') :=
  (Value.shown_mono h _ _).bind fun _ => (Value.shown_mono h _ _).bind_pure _

theorem shownWith_mono {o o' : ObjectTexts} (h : o.Le o') (d : Diagram) :
    Extends (d.shownWith o) (d.shownWith o') := (nameWith_mono h d).bind_pure _

/-- In a larger store there is more to know, and more can be written with a greater depth. -/
theorem objectTexts_mono (hg : Grows s t) {n m : Nat} (h : n ≤ m) :
    (s.objectTexts n).Le (t.objectTexts m) := by
  induction n generalizing m with
  | zero => exact ⟨fun _ _ => .error _ _, fun _ => .error _ _⟩
  | succ n ih =>
    obtain ⟨m, rfl⟩ : ∃ k, m = k + 1 := ⟨m - 1, by omega⟩
    have hle := ih (m := m) (by omega)
    have htext : ∀ form r, Extends ((s.objectTexts (n + 1)).text form r)
        ((t.objectTexts (m + 1)).text form r) := by
      intro form r
      simp only [objectTexts]
      cases ho : s.objects[r]? with
      | none => exact .error _ _
      | some o =>
        rw [hg.get ho]
        cases o with
        | diagram d => exact shownWith_mono hle d
        | _ => exact .refl _
    refine ⟨htext, fun r => ?_⟩
    have hquoted := htext .quoted r
    simp only [objectTexts] at hquoted ⊢
    cases ho : s.objects[r]? with
    | none => exact .error _ _
    | some o =>
      rw [ho, hg.get ho] at hquoted
      rw [hg.get ho]
      cases o with
      | diagram d => exact hquoted.bind_pure _
      | _ => exact .refl _

theorem texts_mono (hg : Grows s t) : s.texts.Le t.texts :=
  objectTexts_mono hg (Nat.succ_le_succ hg.length_le)

def Writable (s : Store) (as : List Value) : Prop := ∃ x, s.text .plain (.row as) = .ok x

theorem Writable.grows (h : s.Writable as) (hg : Grows s t) : t.Writable as :=
  h.imp fun x hx => Value.shown_mono (texts_mono hg) _ _ x hx

theorem writable_iff : s.Writable as ↔ ∃ texts, Value.shownAll s.texts .plain as = .ok texts := by
  unfold Writable text
  rw [Value.shown]
  cases h : Value.shownAll s.texts .plain as with
  | ok texts => exact ⟨fun _ => ⟨texts, rfl⟩, fun _ => ⟨_, rfl⟩⟩
  | error e => exact ⟨fun ⟨x, hx⟩ => (nomatch hx), fun ⟨x, hx⟩ => (nomatch hx)⟩

theorem Writable.append (h : s.Writable as) (h' : s.Writable bs) : s.Writable (as ++ bs) := by
  obtain ⟨texts, hs⟩ := writable_iff.mp h
  obtain ⟨texts', hs'⟩ := writable_iff.mp h'
  refine writable_iff.mpr ⟨texts ++ texts', ?_⟩
  rw [Value.shownAll_append, hs, hs']
  rfl

/-- The name of a diagram is made of its two rows. -/
theorem named_iff : (∃ x, s.diagramName d = .ok x) ↔ s.Writable d.inputs ∧ s.Writable d.outputs := by
  unfold Writable text diagramName Diagram.nameWith
  constructor
  · rintro ⟨x, hx⟩
    obtain ⟨dom, hdom, hx⟩ := bind_eq_ok.mp hx
    obtain ⟨codom, hcodom, -⟩ := bind_eq_ok.mp hx
    exact ⟨⟨dom, hdom⟩, codom, hcodom⟩
  · rintro ⟨⟨dom, hdom⟩, codom, hcodom⟩
    exact ⟨_, bind_eq_ok.mpr ⟨dom, hdom, bind_eq_ok.mpr ⟨codom, hcodom, rfl⟩⟩⟩

end Store

end StringDiagram
