import StringDiagram.Proofs.Diagram.Revision
import StringDiagram.Proofs.Store.Histories

/-! # What a refused edit leaves

An edit reads its arguments and then writes to the tables of a diagram, one after the other. It is refused
before the first write or not at all, so a refusal leaves everything as it was. Several boxes or wires are
added one by one, and those before the first that is refused stay. -/
namespace StringDiagram

/-- The wire that is to be removed. One with an end that is no connector is on no edge. -/
def Store.wireToRemove (s : Store) : Value → Except Fault Wire
  | .wire a b => match a.connector?, b.connector? with
    | some source, some target => .ok ⟨source, target⟩
    | _, _ => do
      let source ← s.boxOf a
      let target ← s.boxOf b
      let _ ← Diagram.edge? source target
      .error (.wireNotFound (.wire a b))
  | v => s.wireOfPair v

theorem Store.withoutWire_eq (s : Store) (d : Diagram) (v : Value) :
    s.withoutWire d v = s.wireToRemove v >>= d.removeWire := by
  cases v with
  | wire a b =>
    rw [withoutWire, wireToRemove]
    cases a.connector? <;> cases b.connector?
    case some.some => rfl
    all_goals
      cases s.boxOf a with
      | error e => rfl
      | ok source =>
        cases s.boxOf b with
        | error e => rfl
        | ok target =>
          simp only [bind, Except.bind]
          cases Diagram.edge? source target <;> rfl
  | _ => rfl

namespace Revision

def edit (s : Store) : Edit → Revision Value
  | .addBox v => do
    let box ← read fun _ => s.asBox v
    let n ← addBox box
    return .ofNat n
  | .removeBox v => removeBox v
  | .addWire v => do
    let w ← read fun _ => s.wireOf v
    addWire w
    return .null
  | .removeWire v => do
    let w ← read fun _ => s.wireToRemove v
    removeWire w
    return .null
  | .removeWires src tgt => do
    removeEdge src tgt
    return .null

theorem perform_edit {d : Diagram} (hd : d.Consistent) (s : Store) (c : Edit) :
    (edit s c).perform d = settle d (d.edit s c) := by
  cases c with
  | addBox v =>
    rw [edit, perform_bind, perform_read, Diagram.edit]
    cases s.asBox v with
    | error e => rfl
    | ok box =>
      dsimp only
      rw [perform_bind, perform_addBox hd]
      rfl
  | removeBox v => exact perform_removeBox hd v
  | addWire v =>
    rw [edit, perform_bind, perform_read, Diagram.edit, withWire_eq]
    cases s.wireOf v with
    | error e => rfl
    | ok w =>
      dsimp only
      rw [perform_bind, perform_addWire]
      simp only [bind, Except.bind]
      cases d.addWire w <;> rfl
  | removeWire v =>
    rw [edit, perform_bind, perform_read, Diagram.edit, Store.withoutWire_eq]
    cases s.wireToRemove v with
    | error e => rfl
    | ok w =>
      dsimp only
      rw [perform_bind, perform_removeWire hd]
      simp only [bind, Except.bind]
      cases d.removeWire w <;> rfl
  | removeWires src tgt =>
    rw [edit, perform_bind, perform_removeWires hd, Diagram.edit]
    cases d.removeWires src tgt <;> rfl

end Revision

namespace Action
variable {β γ : Type} {a : Value → Action β} {r : Ref} {s s' : Store} {e : Fault}

inductive Succeed (a : Value → Action β) : Store → List Value → Store → Prop
  | nil (s : Store) : Succeed a s [] s
  | cons {s s₁ s' : Store} {x : Value} {xs : List Value} {y : β} (h : (a x).perform s = (.ok y, s₁))
    (hrest : Succeed a s₁ xs s') : Succeed a s (x :: xs) s'

/-- A run over values is refused with the first of them, and that refusal changes nothing. -/
theorem exists_refused (run : List Value → Action γ) (hnil : ∀ s e s', (run []).perform s ≠ (.error e, s'))
    (hcons : ∀ x xs s e s', (run (x :: xs)).perform s = (.error e, s') →
      (a x).perform s = (.error e, s') ∨
        ∃ y s₁, (a x).perform s = (.ok y, s₁) ∧ (run xs).perform s₁ = (.error e, s'))
    (ha : ∀ x s e s', (a x).perform s = (.error e, s') → s' = s) {xs : List Value}
    (h : (run xs).perform s = (.error e, s')) :
    ∃ before x after, xs = before ++ x :: after ∧ Succeed a s before s' ∧
      (a x).perform s' = (.error e, s') := by
  induction xs generalizing s with
  | nil => exact absurd h (hnil s e s')
  | cons x xs ih =>
    rcases hcons x xs s e s' h with hx | ⟨y, s₁, hx, hrest⟩
    · obtain rfl := ha x s e s' hx
      exact ⟨[], x, xs, rfl, .nil s', hx⟩
    · obtain ⟨before, z, after, rfl, hbefore, hz⟩ := ih hrest
      exact ⟨x :: before, z, after, rfl, .cons hx hbefore, hz⟩

theorem perform_bind_eq_error {a : Action β} {f : β → Action γ} :
    perform (a >>= f) s = (.error e, s') ↔ perform a s = (.error e, s') ∨
      ∃ x u, perform a s = (.ok x, u) ∧ perform (f x) u = (.error e, s') := by
  rw [perform_bind]
  rcases perform a s with ⟨e' | x, u⟩
  · simp
  · simp only [Prod.mk.injEq, Except.ok.injEq, reduceCtorEq, false_and, false_or]
    exact ⟨fun h => ⟨x, u, ⟨rfl, rfl⟩, h⟩, fun ⟨_, _, ⟨hx, hu⟩, h⟩ => hx ▸ hu ▸ h⟩

/-- An action that begins with a question is refused by the question or after it. -/
theorem perform_ask_bind_eq_error {question : Store → Except Fault β} {f : β → Action γ} :
    perform (ask question >>= f) s = (.error e, s') ↔ question s = .error e ∧ s' = s ∨
      ∃ x, question s = .ok x ∧ perform (f x) s = (.error e, s') := by
  rw [perform_bind, perform_ask]
  rcases question s with e' | x
  · simp [eq_comm]
  · simp

theorem addBox_refused {v : Value} (h : (addBox r v).perform s = (.error e, s')) : s' = s := by
  rcases perform_ask_bind_eq_error.mp h with ⟨-, hs⟩ | ⟨box, -, h⟩
  · exact hs
  · rcases perform_ask_bind_eq_error.mp h with ⟨-, hs⟩ | ⟨d, -, h⟩
    · exact hs
    · cases h

theorem addWire_refused {v : Value} (h : (addWire r v).perform s = (.error e, s')) : s' = s := by
  rcases perform_ask_bind_eq_error.mp h with ⟨-, hs⟩ | ⟨d, -, h⟩
  · exact hs
  · rcases perform_ask_bind_eq_error.mp h with ⟨-, hs⟩ | ⟨d', -, h⟩
    · exact hs
    · cases h

theorem mapM_refused (ha : ∀ x s e s', (a x).perform s = (.error e, s') → s' = s) {xs : List Value}
    (h : (xs.mapM a).perform s = (.error e, s')) : ∃ before x after, xs = before ++ x :: after ∧
      Succeed a s before s' ∧ (a x).perform s' = (.error e, s') := by
  refine exists_refused (fun xs => xs.mapM a) ?_ ?_ ha h
  · intro s e s' hrun
    cases hrun
  · intro x xs s e s' hrun
    rw [List.mapM_cons, perform_bind_eq_error] at hrun
    refine hrun.imp_right ?_
    rintro ⟨y, s₁, hx, hrun⟩
    rcases perform_bind_eq_error.mp hrun with hrest | ⟨ys, s₂, -, hrun⟩
    · exact ⟨y, s₁, hx, hrest⟩
    · cases hrun

theorem forM_refused {a : Value → Action Unit}
    (ha : ∀ x s e s', (a x).perform s = (.error e, s') → s' = s) {xs : List Value}
    (h : (xs.forM a).perform s = (.error e, s')) : ∃ before x after, xs = before ++ x :: after ∧
      Succeed a s before s' ∧ (a x).perform s' = (.error e, s') := by
  refine exists_refused (fun xs => xs.forM a) ?_ ?_ ha h
  · intro s e s' hrun
    cases hrun
  · intro x xs s e s' hrun
    exact perform_bind_eq_error.mp hrun

end Action

/-- An edit of a consistent diagram changes its tables as a whole or is refused before it changes any.
When several boxes or wires are to be added and one is refused, the store is as the single additions before
it left it. -/
theorem refused_edits {s : Store} {r : Ref} {d : Diagram} (hr : s.diagram? r = some d) (hd : d.Consistent) :
    (∀ c : Edit,
      (∃ a d', (Revision.edit s c).perform d = (.ok a, d') ∧
        (c.on r).perform s = (.ok a, s.withDiagram r d')) ∨
      ∃ e, (Revision.edit s c).perform d = (.error e, d) ∧ (c.on r).perform s = (.error e, s)) ∧
    (∀ xs e s', (Action.addBoxes r xs).perform s = (.error e, s') →
      s.elements xs = .error e ∧ s' = s ∨
        ∃ before x after, s.elements xs = .ok (before ++ x :: after) ∧
          Action.Succeed (Action.addBox r) s before s' ∧ (Action.addBox r x).perform s' = (.error e, s')) ∧
    (∀ ws e s', (Action.addWires r ws).perform s = (.error e, s') →
      s.elements ws = .error e ∧ s' = s ∨
        ∃ before w after, s.elements ws = .ok (before ++ w :: after) ∧
          Action.Succeed (Action.addWire r) s before s' ∧
            (Action.addWire r w).perform s' = (.error e, s')) := by
  refine ⟨?_, ?_, ?_⟩
  · intro c
    rw [Revision.perform_edit hd, perform_edit hr]
    cases hc : d.edit s c with
    | ok x => exact Or.inl ⟨x.1, x.2, rfl, rfl⟩
    | error e => exact Or.inr ⟨e, rfl, rfl⟩
  · intro xs e s' h
    refine (Action.perform_ask_bind_eq_error.mp h).imp_right ?_
    rintro ⟨vs, hvs, hrun⟩
    obtain ⟨before, x, after, rfl, hx⟩ := Action.mapM_refused (fun _ _ _ _ => Action.addBox_refused) hrun
    exact ⟨before, x, after, hvs, hx⟩
  · intro ws e s' h
    refine (Action.perform_ask_bind_eq_error.mp h).imp_right ?_
    rintro ⟨vs, hvs, hrun⟩
    obtain ⟨before, w, after, rfl, hw⟩ := Action.forM_refused (fun _ _ _ _ => Action.addWire_refused) hrun
    exact ⟨before, w, after, hvs, hw⟩

/-- A loop is removed. Of two wires to be added the second leads to no box, and the first stays. -/
theorem refused_edits_loop :
    let d := ((Diagram.new [] []).addBox (.object "f")).link 2 2 (.ofPorts 2 0 2 0)
    let s : Store := ⟨[.diagram d], []⟩
    let c := Edit.removeWires (.ofNat 2) (.ofNat 2)
    let ws := Value.list [(Wire.ofPorts 0 0 1 0).toValue, (Wire.ofPorts 0 0 3 0).toValue]
    let s' := ((Action.addWires 0 ws).perform s).2
    ((∃ a d', (Revision.edit s c).perform d = (.ok a, d') ∧ (c.on 0).perform s = (.ok a, s.withDiagram 0 d')) ∨
      ∃ e, (Revision.edit s c).perform d = (.error e, d) ∧ (c.on 0).perform s = (.error e, s)) ∧
    ∃ before w after, s.elements ws = .ok (before ++ w :: after) ∧
      Action.Succeed (Action.addWire 0) s before s' ∧
        (Action.addWire 0 w).perform s' = (.error (.missingKey (.ofNat 3)), s') := by
  intro d s c ws s'
  have hd : d.Consistent := ((Diagram.consistent_new [] []).addBox _).link (by decide) (by decide) (by decide)
  have hrun : (Action.addWires 0 ws).perform s = (.error (.missingKey (.ofNat 3)), s') := rfl
  obtain ⟨hedits, -, hwires⟩ := refused_edits (s := s) (r := 0) rfl hd
  refine ⟨hedits c, (hwires ws _ s' hrun).resolve_left ?_⟩
  rintro ⟨h, -⟩
  cases h

end StringDiagram
