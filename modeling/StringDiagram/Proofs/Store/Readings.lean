import StringDiagram.Wire.Given
import StringDiagram.Store.Edit
import StringDiagram.Proofs.Diagram.Listing

/-! # Arguments and the diagram they are for

A box or a wire may be given by values that lead to the very diagram it is meant for. What it is read as does
not change with the boxes and wires of that diagram: these show in texts only, as numbers, and a text is only
asked for where an argument is refused. -/
namespace StringDiagram

def Together {α β : Type} (x : Except Fault α) (y : Except Fault β) : Prop := Agree (fun _ _ => True) x y

namespace Together
variable {α β γ δ : Type} {x : Except Fault α} {y : Except Fault β} {f : α → Except Fault γ}
  {g : β → Except Fault δ}

theorem refl (x : Except Fault α) : Together x x := Agree.refl.imp fun _ _ _ => trivial

theorem bind (h : Together x y) (hf : ∀ a b, Together (f a) (g b)) : Together (x >>= f) (y >>= g) :=
  Agree.bind h fun a b _ => hf a b

/-- What is made of the answers cannot fail. -/
theorem bind_ok (h : Together x y) (hf : ∀ a, ∃ c, f a = .ok c) (hg : ∀ b, ∃ c, g b = .ok c) :
    Together (x >>= f) (y >>= g) := by
  refine h.bind fun a b => ?_
  obtain ⟨c, hc⟩ := hf a
  obtain ⟨c', hc'⟩ := hg b
  rw [hc, hc']
  trivial

end Together

structure ObjectTexts.Parallel (o o' : ObjectTexts) : Prop where
  text : ∀ form r, Together (o.text form r) (o'.text form r)
  name : ∀ r, Together (o.name r) (o'.name r)

namespace Value
variable {o o' : ObjectTexts}

mutual

theorem shown_together (h : o.Parallel o') :
    ∀ (form : Form) (v : Value), Together (shown o form v) (shown o' form v)
  | _, .list vs => by
    simp only [shown]
    exact (shownAll_together h .quoted vs).bind_ok (fun _ => ⟨_, rfl⟩) fun _ => ⟨_, rfl⟩
  | _, .tuple vs => by
    simp only [shown]
    refine (shownAll_together h .quoted vs).bind_ok ?_ ?_ <;>
      intro texts <;> split <;> exact ⟨_, rfl⟩
  | _, .product vs => by
    simp only [shown]
    refine (shownAll_together h .plain vs).bind_ok ?_ ?_ <;>
      intro texts <;> split <;> exact ⟨_, rfl⟩
  | .plain, .row vs => by
    simp only [shown]
    exact (shownAll_together h .plain vs).bind_ok (fun _ => ⟨_, rfl⟩) fun _ => ⟨_, rfl⟩
  | .quoted, .row vs => by
    simp only [shown]
    exact (shownAll_together h .quoted vs).bind_ok (fun _ => ⟨_, rfl⟩) fun _ => ⟨_, rfl⟩
  | _, .connector b k p => by
    simp only [shown]
    exact (shown_together h .plain b).bind fun _ _ => (shownName_together h k).bind fun _ _ =>
      (shown_together h .plain p).bind_ok (fun _ => ⟨_, rfl⟩) fun _ => ⟨_, rfl⟩
  | _, .wire s t => by
    simp only [shown]
    exact (shown_together h .plain s).bind fun _ _ =>
      (shown_together h .plain t).bind_ok (fun _ => ⟨_, rfl⟩) fun _ => ⟨_, rfl⟩
  | form, .hom n ds cs => by
    simp only [shown]
    refine (shown_together h .plain n).bind fun _ _ => (shownAll_together h .plain ds).bind fun _ _ =>
      (shownAll_together h .plain cs).bind_ok ?_ ?_ <;> intro texts <;> cases form <;> exact ⟨_, rfl⟩
  | _, .atomic e => by
    simp only [shown]
    exact (shown_together h .quoted e).bind_ok (fun _ => ⟨_, rfl⟩) fun _ => ⟨_, rfl⟩
  | form, .ref r => by
    simp only [shown]
    exact h.text form r
  | _, .operation v _ => by
    simp only [shown]
    exact (shown_together h .quoted v).bind_ok (fun _ => ⟨_, rfl⟩) fun _ => ⟨_, rfl⟩
  | _, .null | _, .truth _ | _, .int _ | .plain, .text _ | .quoted, .text _ | _, .object _ | .plain, .side _
  | .quoted, .side _ | _, .palette _ => by
    simp only [shown]
    exact .refl _

theorem shownAll_together (h : o.Parallel o') :
    ∀ (form : Form) (vs : List Value), Together (shownAll o form vs) (shownAll o' form vs)
  | _, [] => by
    simp only [shownAll]
    exact .refl _
  | form, v :: vs => by
    simp only [shownAll]
    exact (shown_together h form v).bind fun _ _ =>
      (shownAll_together h form vs).bind_ok (fun _ => ⟨_, rfl⟩) fun _ => ⟨_, rfl⟩

theorem shownName_together (h : o.Parallel o') : ∀ v : Value, Together (shownName o v) (shownName o' v)
  | .hom n _ _ => by
    simp only [shownName]
    exact shown_together h .plain n
  | .atomic e => by
    simp only [shownName]
    exact (shown_together h .quoted e).bind_ok (fun _ => ⟨_, rfl⟩) fun _ => ⟨_, rfl⟩
  | .ref r => by
    simp only [shownName]
    exact h.name r
  | .object _ | .side _ | .null | .truth _ | .int _ | .text _ | .list _ | .tuple _ | .product _ | .row _
  | .connector _ _ _ | .wire _ _ | .palette _ | .operation _ _ => by
    simp only [shownName]
    exact .refl _

end

end Value

namespace Store

def withDiagram (s : Store) (r : Ref) (d : Diagram) : Store :=
  { s with objects := s.objects.set r (.diagram d) }

section Texts
variable {s : Store} {r : Ref} {d d' : Diagram}

theorem object_withDiagram (hr : s.diagram? r = some d) (d' : Diagram) (q : Ref) :
    (s.withDiagram r d').objects[q]? = s.objects[q]? ∨
      (s.withDiagram r d').objects[q]? = some (.diagram d') ∧ s.objects[q]? = some (.diagram d) := by
  by_cases hq : r = q
  · subst hq
    exact .inr ⟨List.getElem?_set_self (lt_of_diagram? hr), diagram?_eq_some.mp hr⟩
  · exact .inl (List.getElem?_set_ne hq)

theorem diagram?_withDiagram (hr : s.diagram? r = some d) (d' : Diagram) :
    (s.withDiagram r d').diagram? r = some d' := diagram?_set hr d'

theorem withDiagram_withDiagram (s : Store) (r : Ref) (d d' : Diagram) :
    (s.withDiagram r d).withDiagram r d' = s.withDiagram r d' := by
  simp [withDiagram]

theorem shownWith_together {o o' : ObjectTexts} (h : o.Parallel o') (hi : d.inputs = d'.inputs)
    (ho : d.outputs = d'.outputs) : Together (d.shownWith o) (d'.shownWith o') := by
  unfold Diagram.shownWith Diagram.nameWith
  rw [hi, ho]
  refine Together.bind_ok ?_ (fun _ => ⟨_, rfl⟩) fun _ => ⟨_, rfl⟩
  exact (Value.shown_together h _ _).bind fun _ _ =>
    (Value.shown_together h _ _).bind_ok (fun _ => ⟨_, rfl⟩) fun _ => ⟨_, rfl⟩

/-- Boxes and wires of a diagram show in its text as numbers only. -/
theorem objectTexts_parallel (hr : s.diagram? r = some d) (hi : d'.inputs = d.inputs) (ho : d'.outputs = d.outputs)
    (n : Nat) : ((s.withDiagram r d').objectTexts n).Parallel (s.objectTexts n) := by
  induction n with
  | zero => exact ⟨fun _ _ => .refl _, fun _ => .refl _⟩
  | succ n ih =>
    have htext : ∀ form q, Together (((s.withDiagram r d').objectTexts (n + 1)).text form q)
        ((s.objectTexts (n + 1)).text form q) := by
      intro form q
      simp only [objectTexts]
      rcases object_withDiagram hr d' q with hq | ⟨hq, hq'⟩
      · rw [hq]
        cases s.objects[q]? with
        | none => exact .refl _
        | some o =>
          cases o with
          | diagram e => exact shownWith_together ih rfl rfl
          | _ => exact .refl _
      · rw [hq, hq']
        exact shownWith_together ih hi ho
    refine ⟨htext, fun q => ?_⟩
    have hquoted := htext .quoted q
    simp only [objectTexts] at hquoted ⊢
    rcases object_withDiagram hr d' q with hq | ⟨hq, hq'⟩
    · rw [hq] at hquoted ⊢
      cases ho : s.objects[q]? with
      | none => exact .refl _
      | some o =>
        rw [ho] at hquoted
        cases o with
        | diagram e => exact hquoted.bind_ok (fun _ => ⟨_, rfl⟩) fun _ => ⟨_, rfl⟩
        | _ => exact .refl _
    · rw [hq, hq'] at hquoted ⊢
      exact hquoted.bind_ok (fun _ => ⟨_, rfl⟩) fun _ => ⟨_, rfl⟩

theorem text_together (hr : s.diagram? r = some d) (hi : d'.inputs = d.inputs) (ho : d'.outputs = d.outputs)
    (form : Form) (v : Value) : Together ((s.withDiagram r d').text form v) (s.text form v) := by
  have hlength : (s.withDiagram r d').objects.length = s.objects.length := List.length_set
  unfold text texts
  rw [hlength]
  exact Value.shown_together (objectTexts_parallel hr hi ho _) form v

end Texts

section Readings
variable {s : Store} {r : Ref} {d d' : Diagram}

def endOf (s : Store) (v : Value) : Except Fault Connector := do
  let box ← s.boxOf v
  return v.connector?.getD ⟨box, .null, .null⟩

def wireOf (s : Store) : Value → Except Fault Wire
  | .wire a b => do
    let source ← s.endOf a
    let target ← s.endOf b
    return ⟨source, target⟩
  | v => s.wireOfPair v

theorem asBox_agree (hr : s.diagram? r = some d) (hi : d'.inputs = d.inputs) (ho : d'.outputs = d.outputs)
    (v : Value) : Agree Eq ((s.withDiagram r d').asBox v) (s.asBox v) := by
  have hbox : (s.withDiagram r d').isBox v = s.isBox v := by
    cases v with
    | atomic e =>
      cases e with
      | ref q =>
        simp only [isBox, exprPorts]
        rcases object_withDiagram hr d' q with hq | ⟨hq, hq'⟩
        · rw [hq]
        · rw [hq, hq']
      | _ => rfl
    | ref q =>
      simp only [isBox]
      rcases object_withDiagram hr d' q with hq | ⟨hq, hq'⟩
      · rw [hq]
      · rw [hq, hq']
    | _ => rfl
  have hexpr : (s.withDiagram r d').isExpr v = s.isExpr v := by
    cases v with
    | ref q =>
      simp only [isExpr]
      rcases object_withDiagram hr d' q with hq | ⟨hq, hq'⟩
      · rw [hq]
      · rw [hq, hq']
    | _ => rfl
  rw [asBox, asBox, hbox, hexpr]
  refine Agree.refl.bind fun b b' hb => ?_
  rw [hb]
  split
  · rfl
  · split
    · rfl
    · exact Agree.bind (text_together hr hi ho .quoted v) fun _ _ _ => rfl

theorem connector_agree (hr : s.diagram? r = some d) (hi : d'.inputs = d.inputs) (ho : d'.outputs = d.outputs)
    (side : Side) (v : Value) : Agree Eq ((s.withDiagram r d').connector side v) (s.connector side v) := by
  unfold connector
  split
  case h_8 => exact Agree.bind (text_together hr hi ho .quoted _) fun _ _ _ => rfl
  all_goals rfl

theorem diagram?_isSome (hr : s.diagram? r = some d) (d' : Diagram) (q : Ref) :
    ((s.withDiagram r d').diagram? q).isSome = (s.diagram? q).isSome := by
  unfold diagram?
  rcases object_withDiagram hr d' q with hq | ⟨hq, hq'⟩
  · rw [hq]
  · rw [hq, hq']
    rfl

theorem elements_withDiagram (hr : s.diagram? r = some d) (d' : Diagram) (v : Value) :
    (s.withDiagram r d').elements v = s.elements v := by
  cases v with
  | ref q =>
    have hq := diagram?_isSome hr d' q
    simp only [elements]
    cases h : s.diagram? q <;> cases h' : (s.withDiagram r d').diagram? q <;> simp [h, h'] at hq ⊢
  | _ => rfl

theorem endOf_withDiagram (hr : s.diagram? r = some d) (d' : Diagram) (v : Value) :
    (s.withDiagram r d').endOf v = s.endOf v := by
  cases v with
  | ref q =>
    have hq := diagram?_isSome hr d' q
    simp only [endOf, boxOf]
    cases h : s.diagram? q <;> cases h' : (s.withDiagram r d').diagram? q <;> simp [h, h'] at hq ⊢
  | _ => rfl

theorem wireOf_agree (hr : s.diagram? r = some d) (hi : d'.inputs = d.inputs) (ho : d'.outputs = d.outputs)
    (v : Value) : Agree Eq ((s.withDiagram r d').wireOf v) (s.wireOf v) := by
  have hpair : Agree Eq ((s.withDiagram r d').wireOfPair v) (s.wireOfPair v) := by
    rw [wireOfPair, wireOfPair, elements_withDiagram hr]
    refine Agree.refl.bind fun vs vs' hvs => ?_
    rw [hvs]
    split
    · exact (connector_agree hr hi ho .output _).bind fun source _ hs =>
        (connector_agree hr hi ho .input _).bind fun target _ ht => by rw [hs, ht]; rfl
    · rfl
  unfold wireOf
  split
  · rw [endOf_withDiagram hr, endOf_withDiagram hr]
    exact .refl
  · exact hpair

end Readings
end Store

end StringDiagram
