import StringDiagram.Proofs.Store.Safe

/-! # Runs of changes

A run is any sequence of changes to stored diagrams, with any arguments; a change that is refused keeps
what it had done. All calls are safe, so consistency and the freshness of identifiers need no look at the
run itself. -/
namespace StringDiagram

inductive Call where
  | addBox (box : Value)
  | addBoxes (boxes : Value)
  | removeBox (box : Value)
  | addWire (wire : Value)
  | addWires (wires : Value)
  | removeWire (wire : Value)
  | removeWires (src tgt : Value)
  | substitute (box sub : Value)
deriving DecidableEq, Inhabited

def Call.on (r : Ref) : Call → Action Unit
  | .addBox box => do let _ ← Action.addBox r box
  | .addBoxes boxes => do let _ ← Action.addBoxes r boxes
  | .removeBox box => do let _ ← Action.removeBox r box
  | .addWire wire => Action.addWire r wire
  | .addWires wires => Action.addWires r wires
  | .removeWire wire => Action.removeWire r wire
  | .removeWires src tgt => Action.removeWires r src tgt
  | .substitute box sub => Action.substitute r box sub

theorem Call.keeps {r : Ref} {R : Store → Store → Prop} (hR : Store.Tracks r R) (c : Call) :
    Action.Keeps R (c.on r) := by
  cases c with
  | addBox box => exact Action.keeps_bind hR (Action.keeps_addBox hR box) fun _ => Action.keeps_pure hR _
  | addBoxes boxes => exact Action.keeps_bind hR (Action.keeps_addBoxes hR boxes) fun _ => Action.keeps_pure hR _
  | removeBox box => exact Action.keeps_bind hR (Action.keeps_removeBox hR box) fun _ => Action.keeps_pure hR _
  | addWire wire => exact Action.keeps_addWire hR wire
  | addWires wires => exact Action.keeps_addWires hR wires
  | removeWire wire => exact Action.keeps_removeWire hR wire
  | removeWires src tgt => exact Action.keeps_removeWires hR src tgt
  | substitute box sub => exact Action.keeps_substitute hR box sub

theorem Call.safe (r : Ref) (c : Call) : (c.on r).Safe := c.keeps (Store.evolves_tracks r)

namespace Store

def call (s : Store) (r : Ref) (c : Call) : Store := ((c.on r).perform s).2

def run (s : Store) : List (Ref × Call) → Store
  | [] => s
  | (r, c) :: calls => (s.call r c).run calls

theorem evolves_run (s : Store) (calls : List (Ref × Call)) : s.Evolves (s.run calls) := by
  induction calls generalizing s with
  | nil => exact .refl s
  | cons e calls ih => exact (Call.safe e.1 e.2 s).trans (ih _)

/-- What is done to a diagram and to others leaves it consistent. -/
theorem consistent_run {s : Store} {r : Ref} {d : Diagram} (hr : s.diagram? r = some d) (hd : d.Consistent)
    (calls : List (Ref × Call)) : ∃ d', (s.run calls).diagram? r = some d' ∧ d'.Consistent := by
  obtain ⟨d', hr', hdd'⟩ := evolves_run s calls r d hr
  exact ⟨d', hr', hdd'.consistent hd⟩

def boxIds (s : Store) (r : Ref) : List Nat :=
  match s.diagram? r with
  | some d => d.boxes.keys
  | none => []

theorem boxIds_eq {s : Store} {r : Ref} {d : Diagram} (hr : s.diagram? r = some d) :
    s.boxIds r = d.boxes.keys := by rw [boxIds, hr]

def idsGiven (s : Store) (r : Ref) : List (Ref × Call) → List Nat
  | [] => []
  | (q, c) :: calls =>
    ((s.call q c).boxIds r).filter (fun n => !(s.boxIds r).contains n) ++ (s.call q c).idsGiven r calls

theorem idsGiven_ascending {s : Store} {r : Ref} {d : Diagram} (hr : s.diagram? r = some d)
    (hd : d.Consistent) (calls : List (Ref × Call)) :
    (s.idsGiven r calls).Pairwise (· < ·) ∧ ∀ n ∈ s.idsGiven r calls, d.next ≤ n := by
  induction calls generalizing s d with
  | nil => simp [idsGiven]
  | cons e calls ih =>
    obtain ⟨d', hr', hdd'⟩ := Call.safe e.1 e.2 s r d hr
    have hd' := hdd'.consistent hd
    obtain ⟨hasc, hle⟩ := ih hr' hd'
    have hnew : ∀ n ∈ (d'.boxes.keys).filter (fun n => !(d.boxes.keys).contains n),
        d.next ≤ n ∧ n < d'.next := by
      intro n hn
      obtain ⟨hn, hold⟩ := List.mem_filter.mp hn
      refine ⟨?_, hd'.below_next n (Diagram.Consistent.box_live hn)⟩
      rcases hdd'.fresh n hn with h | h
      · simp [h] at hold
      · exact h
    rw [idsGiven, boxIds_eq hr, boxIds_eq (show (s.call e.1 e.2).diagram? r = some d' from hr')]
    constructor
    · refine List.pairwise_append.mpr ⟨?_, hasc, ?_⟩
      · exact ((List.pairwise_cons.mp (List.pairwise_cons.mp hd'.ascending).2).2).filter _
      · intro n hn m hm
        exact Nat.lt_of_lt_of_le (hnew n hn).2 (hle m hm)
    · intro n hn
      rcases List.mem_append.mp hn with hn | hn
      · exact (hnew n hn).1
      · exact Nat.le_trans hdd'.next_le (hle n hn)

theorem idsGiven_append (s : Store) (r : Ref) (calls calls' : List (Ref × Call)) :
    s.idsGiven r (calls ++ calls') = s.idsGiven r calls ++ (s.run calls).idsGiven r calls' := by
  induction calls generalizing s with
  | nil => rfl
  | cons e calls ih =>
    rw [List.cons_append, idsGiven, idsGiven, ih, List.append_assoc]
    rfl

theorem diagram?_of_newDiagram {s s' : Store} {inputs outputs : Value} {r : Ref}
    (h : (Action.newDiagram inputs outputs).perform s = (.ok r, s')) :
    ∃ ins outs, s'.diagram? r = some (Diagram.new ins outs) := by
  rw [Action.newDiagram, Action.perform_bind, Action.perform_ask] at h
  cases hin : s.collect inputs with
  | error e => simp [hin] at h
  | ok ins =>
    simp only [hin, Action.perform_bind, Action.perform_ask] at h
    cases hout : s.collect outputs with
    | error e => simp [hout] at h
    | ok outs =>
      simp only [hout, Action.perform_allocate, Prod.mk.injEq, Except.ok.injEq] at h
      refine ⟨ins, outs, ?_⟩
      rw [diagram?_eq_some, ← h.1, ← h.2]
      simp

/-- A box that is added gets one identifier, and that is the answer. -/
theorem idsGiven_addBox {s : Store} {r : Ref} {d : Diagram} (hr : s.diagram? r = some d)
    (hd : d.Consistent) {box : Value} {n : Nat}
    (h : ((Action.addBox r box).perform s).1 = .ok n) : s.idsGiven r [(r, .addBox box)] = [n] := by
  have hb : ∃ b, s.asBox box = .ok b := by
    rw [Action.addBox, Action.perform_bind, Action.perform_ask] at h
    cases hb : s.asBox box with
    | ok b => exact ⟨b, rfl⟩
    | error e => simp [hb] at h
  obtain ⟨b, hb⟩ := hb
  have hp : (Action.addBox r box).perform s =
      (.ok d.next, { s with objects := s.objects.set r (.diagram (d.addBox b)) }) := by
    rw [Action.addBox, Action.perform_bind, Action.perform_ask, hb]
    exact Action.perform_insertBox hr b
  have hn : n = d.next := by
    rw [hp] at h
    exact (Except.ok.inj h).symm
  have hcall : (s.call r (.addBox box)).diagram? r = some (d.addBox b) := by
    have hs : s.call r (.addBox box) = ((Action.addBox r box).perform s).2 := by
      rw [call, Call.on, Action.perform_bind, hp]
      rfl
    rw [hs, hp]
    exact diagram?_set hr _
  have hfresh : d.next ∉ d.boxes.keys := fun hk => hd.next_not_live (Diagram.Consistent.box_live hk)
  have hkeys : (d.addBox b).boxes.keys = d.boxes.keys ++ [d.next] := by simp [Diagram.addBox]
  have hold : d.boxes.keys.filter (fun m => !d.boxes.keys.contains m) = [] := by
    apply List.filter_eq_nil_iff.mpr
    intro m hm
    simp [hm]
  rw [idsGiven, idsGiven, boxIds_eq hr, boxIds_eq hcall, hn]
  simp only [hkeys, List.filter_append, hold, List.append_nil, List.nil_append]
  simp [hfresh]

/-- A new diagram stays consistent whatever is done to it and to other diagrams, by calls with any
arguments and also by those that are refused. The boundary is never a box; the tables of neighbours have
the boundary and then the boxes, ascending; no edge is empty and each wire is on its own edge; the two
tables and the edges say the same of any two boxes. An identifier that was given is not given again. -/
theorem run_keeps_representation {s s' : Store} {inputs outputs : Value} {r : Ref}
    (hnew : (Action.newDiagram inputs outputs).perform s = (.ok r, s')) (calls : List (Ref × Call)) :
    (∃ d, (s'.run calls).diagram? r = some d ∧
      Diagram.inputId ∉ d.boxes.keys ∧ Diagram.outputId ∉ d.boxes.keys ∧
      d.succ.keys = Diagram.inputId :: Diagram.outputId :: d.boxes.keys ∧
      d.pred.keys = Diagram.inputId :: Diagram.outputId :: d.boxes.keys ∧
      d.boxes.keys.Pairwise (· < ·) ∧ (∀ v ∈ d.succ.keys, v < d.next) ∧
      (∀ e ws, d.edges.get? e = some ws → ws ≠ [] ∧ ∀ w ∈ ws,
        w.source.box.same (.ofNat e.1) = true ∧ w.target.box.same (.ofNat e.2) = true) ∧
      ∀ v ∈ d.succ.keys, ∀ u ∈ d.succ.keys, ∃ out into,
        d.succ.get? v = some out ∧ d.pred.get? u = some into ∧
        (u ∈ out.keys ↔ (v, u) ∈ d.edges.keys) ∧ (v ∈ into.keys ↔ (v, u) ∈ d.edges.keys) ∧
        d.hasWire (.ofNat v) (.ofNat u) = .ok (decide ((v, u) ∈ d.edges.keys))) ∧
    (s'.idsGiven r calls).Pairwise (· < ·) ∧
    ∀ box n, ((Action.addBox r box).perform (s'.run calls)).1 = .ok n →
      s'.idsGiven r (calls ++ [(r, .addBox box)]) = s'.idsGiven r calls ++ [n] := by
  obtain ⟨ins, outs, hr⟩ := diagram?_of_newDiagram hnew
  obtain ⟨d, hd, hc⟩ := consistent_run hr (Diagram.consistent_new ins outs) calls
  refine ⟨⟨d, hd, ?_, ?_, hc.succ_keys, hc.pred_keys, ?_, ?_, ?_, ?_⟩, ?_, ?_⟩
  · exact fun hk => hc.ne_input hk rfl
  · exact fun hk => hc.ne_output hk rfl
  · exact (List.pairwise_cons.mp (List.pairwise_cons.mp hc.ascending).2).2
  · intro v hv
    exact hc.below_next v (hc.succ_keys ▸ hv)
  · intro e ws he
    refine ⟨hc.edge_nonempty e ws he, fun w hw => ?_⟩
    have hw : w ∈ d.wiresOn e := by rw [Diagram.wiresOn, he]; exact hw
    have hb := hc.edge_wire e w hw
    exact ⟨Value.boxId?_eq_some.mp hb.1, Value.boxId?_eq_some.mp hb.2⟩
  · intro v hv u hu
    obtain ⟨out, ho, hok⟩ := hc.exists_out (hc.succ_keys ▸ hv)
    obtain ⟨into, hi, hik⟩ := hc.exists_into (hc.succ_keys ▸ hu)
    refine ⟨out, into, ho, hi, ?_, ?_, Diagram.hasWire_ofNat d v u⟩
    · rw [hok, Diagram.mem_targets]
    · rw [hik, Diagram.mem_sources]
  · exact (idsGiven_ascending hr (Diagram.consistent_new ins outs) calls).1
  · intro box n hbox
    rw [idsGiven_append, idsGiven_addBox hd hc hbox]

/-- A run that adds a box, links it to itself, is refused a wire to a box that is not there and the
removal of the boundary, takes the box away and adds another. -/
theorem run_keeps_representation_refusals :
    let calls : List (Ref × Call) := [(0, .addBox (.atomic (.hom (.text "f") [] []))),
      (0, .addWire (.list [.list [.int 2, .int 0], .list [.int 2, .int 0]])),
      (0, .addWire (.list [.list [.int 2, .int 0], .list [.int 7, .int 0]])),
      (0, .removeBox (.int 1)), (0, .removeBox (.int 2)),
      (0, .addBox (.atomic (.hom (.text "f") [] [])))]
    let s : Store := ⟨[.diagram (.new [] [])], []⟩
    (Action.newDiagram (.list []) (.list [])).perform .empty = (.ok 0, s) ∧
      (∃ d, (s.run calls).diagram? 0 = some d ∧ d.succ.keys = [0, 1, 3] ∧ d.pred.keys = [0, 1, 3] ∧
        d.boxes.keys.Pairwise (· < ·) ∧ ∀ v ∈ d.succ.keys, v < d.next) ∧
      s.idsGiven 0 calls = [2, 3] ∧ (s.idsGiven 0 calls).Pairwise (· < ·) := by
  intro calls s
  have hnew : (Action.newDiagram (.list []) (.list [])).perform .empty = (.ok 0, s) := rfl
  obtain ⟨⟨d, hd, -, -, hs, hp, hasc, hlt, -⟩, hids, -⟩ := run_keeps_representation hnew calls
  have hk : d.boxes.keys = [3] := by
    rw [← boxIds_eq hd]
    decide
  exact ⟨hnew, ⟨d, hd, hk ▸ hs, hk ▸ hp, hasc, hlt⟩, by decide, hids⟩

end Store
end StringDiagram
