import Mathlib.Data.Multiset.Count
import StringDiagram.Proofs.Substitution.Renumbered
import StringDiagram.Proofs.Validity.Substituted

/-! # Linear diagrams

A diagram is linear if one wire starts at each of its inputs and at each output of a box, one ends at each
of its outputs and at each input of a box, and no wire is anywhere else. `linear_iff` says it by the ends
of the wires, of which none occurs twice and which are all ports; `Entered.arity_iff`, that boxes keep the
number of their ports when they come into a host. -/
namespace StringDiagram
open Diagram

def Side.other : Side → Side
  | .input => .output
  | .output => .input

/-- The boundary box whose ports are on a side: the outputs of the one are the inputs of the diagram. -/
def Diagram.boundary : Side → Nat
  | .output => inputId
  | .input => outputId

def Diagram.rim (d : Diagram) : Side → List Value
  | .output => d.inputs
  | .input => d.outputs

theorem Diagram.rim_other (d : Diagram) (side : Side) : d.rim side.other = d.row side := by cases side <;> rfl

theorem Diagram.row_other (d : Diagram) (side : Side) : d.row side.other = d.rim side := by cases side <;> rfl

def Wire.endOn : Side → Wire → Connector
  | .output, w => w.source
  | .input, w => w.target

def Connector.numbered (box : Nat) (side : Side) (port : Nat) : Connector :=
  ⟨.ofNat box, .side side, .ofNat port⟩

namespace Store

def Arity (s : Store) (side : Side) (box : Value) (n : Nat) : Prop :=
  ∃ types, s.ports side box = .ok types ∧ types.length = .ok n

/-- A place where a wire can start, at outputs, or end, at inputs. -/
inductive Port (s : Store) (d : Diagram) (side : Side) : Connector → Prop
  | edge {i : Nat} (hi : i < (d.rim side).length) : Port s d side (.numbered (boundary side) side i)
  | box {v n i : Nat} {b : Value} (hv : d.boxes.get? v = some b) (hn : s.Arity side b n) (hi : i < n) :
    Port s d side (.numbered v side i)

/-- Each port has one wire, and no wire is elsewhere. -/
structure Linear (s : Store) (d : Diagram) : Prop where
  once : ∀ side c, s.Port d side c → d.wires.countP (fun w => (w.endOn side).same c) = 1
  only : ∀ side, ∀ w ∈ d.wires, ∃ c, s.Port d side c ∧ (w.endOn side).same c = true

end Store

namespace Connector

theorem norm_norm (c : Connector) : c.norm.norm = c.norm := by simp [norm, Value.norm_norm]

@[simp] theorem norm_numbered (v : Nat) (side : Side) (i : Nat) : (numbered v side i).norm = numbered v side i :=
  rfl

@[simp] theorem isOn_numbered (n : Nat) (side : Side) (i v : Nat) :
    (numbered n side i).isOn v = decide (n = v) := by
  simp [isOn, numbered]

@[simp] theorem input_port_numbered (v m : Nat) (side : Side) (i : Nat) :
    input (.ofNat v) (numbered m side i).port = numbered v .input i := rfl

@[simp] theorem output_port_numbered (v m : Nat) (side : Side) (i : Nat) :
    output (.ofNat v) (numbered m side i).port = numbered v .output i := rfl

theorem numbered_inj {m n i j : Nat} {side : Side} :
    numbered m side i = numbered n side j ↔ m = n ∧ i = j := by
  simp [numbered, Value.ofNat]

theorem numbered_same_iff {m n i j : Nat} {side : Side} :
    (numbered m side i).same (numbered n side j) = true ↔ m = n ∧ i = j := by
  simp [same, numbered, norm, Value.norm, Value.ofNat]

theorem same_iff_norm {c c' : Connector} : c.same c' = true ↔ c.norm = c'.norm := by simp [same]

end Connector

def Diagram.endsOn (d : Diagram) (side : Side) : Multiset Connector :=
  (d.wires : Multiset Wire).map fun w => (w.endOn side).norm

namespace Store
variable {s s' t : Store} {d d' e : Diagram} {side : Side} {c : Connector} {b b' : Value} {n host : Nat}

theorem Port.exists_numbered (h : s.Port d side c) : ∃ v i, c = .numbered v side i := by
  cases h with
  | edge _ => exact ⟨_, _, rfl⟩
  | box _ _ _ => exact ⟨_, _, rfl⟩

theorem Port.norm_eq (h : s.Port d side c) : c.norm = c := by
  obtain ⟨v, i, rfl⟩ := h.exists_numbered
  rfl

theorem Port.on (h : s.Port d side c) (hon : c.isOn n = true) : ∃ i, c = .numbered n side i := by
  obtain ⟨v, i, rfl⟩ := h.exists_numbered
  rw [Connector.isOn_numbered, decide_eq_true_iff] at hon
  exact ⟨i, hon ▸ rfl⟩

theorem Arity.unique {m : Nat} (h : s.Arity side b m) (h' : s.Arity side b n) : m = n := by
  obtain ⟨types, ht, hm⟩ := h
  obtain ⟨types', ht', hn⟩ := h'
  obtain rfl := Except.ok.inj (ht.symm.trans ht')
  exact Except.ok.inj (hm.symm.trans hn)

theorem boundary_lt (side : Side) : boundary side < 2 := by cases side <;> decide

/-- A port of a box. -/
theorem Port.on_box {v : Nat} (h : s.Port d side c) (hon : c.isOn v = true) (hb : d.boxes.get? v = some b)
    (h2 : 2 ≤ v) (hn : s.Arity side b n) : ∃ i, i < n ∧ c = .numbered v side i := by
  cases h with
  | edge _ =>
    have hlt := boundary_lt side
    rw [Connector.isOn_numbered, decide_eq_true_iff] at hon
    omega
  | @box w _ i _ hw hm hi =>
    rw [Connector.isOn_numbered, decide_eq_true_iff] at hon
    subst hon
    obtain rfl := Option.some.inj (hw.symm.trans hb)
    exact ⟨i, hm.unique hn ▸ hi, rfl⟩

/-- A port of the diagram. -/
theorem Port.on_boundary (h : s.Port d side c) (hon : c.isOn (boundary side) = true) (hd : d.Consistent) :
    ∃ i, i < (d.rim side).length ∧ c = .numbered (boundary side) side i := by
  cases h with
  | @edge i hi => exact ⟨i, hi, rfl⟩
  | box hw _ _ =>
    have h2 := hd.two_le (Table.mem_keys_of_get? hw)
    have hlt := boundary_lt side
    rw [Connector.isOn_numbered, decide_eq_true_iff] at hon
    omega

theorem Port.exists_onBox (h : s.Port d side c) (hoff : c.isOn (boundary side) = false) : ∃ i, d.OnBox i c := by
  cases h with
  | edge _ => simp at hoff
  | box hw _ _ =>
    obtain ⟨i, hi⟩ := List.mem_iff_getElem?.mp (Table.mem_keys_of_get? hw)
    exact ⟨i, _, hi, Value.boxId?_ofNat _⟩

theorem mem_endsOn : c ∈ d.endsOn side ↔ ∃ w ∈ d.wires, (w.endOn side).norm = c := by
  simp [endsOn]

theorem countP_eq_count (d : Diagram) (side : Side) (h : c.norm = c) :
    d.wires.countP (fun w => (w.endOn side).same c) = (d.endsOn side).count c := by
  rw [endsOn, Multiset.map_coe, Multiset.coe_count, List.count, List.countP_map]
  congr 1
  funext w
  simp [Connector.same, h]

/-- A diagram is linear if its wires start and end at different places each, which are all the ports. -/
theorem linear_iff : s.Linear d ↔ ∀ side, (d.endsOn side).Nodup ∧ ∀ c, c ∈ d.endsOn side ↔ s.Port d side c := by
  constructor
  · intro h side
    have hport : ∀ c, c ∈ d.endsOn side ↔ s.Port d side c := by
      intro c
      constructor
      · intro hc
        obtain ⟨w, hw, rfl⟩ := mem_endsOn.mp hc
        obtain ⟨c, hc, hs⟩ := h.only side w hw
        rwa [Connector.same_iff_norm.mp hs, hc.norm_eq]
      · intro hc
        rw [← Multiset.count_pos, ← countP_eq_count d side hc.norm_eq, h.once side c hc]
        exact Nat.one_pos
    refine ⟨Multiset.nodup_iff_count_le_one.mpr fun c => ?_, hport⟩
    by_cases hc : c ∈ d.endsOn side
    · have hc := (hport c).mp hc
      rw [← countP_eq_count d side hc.norm_eq, h.once side c hc]
    · rw [Multiset.count_eq_zero_of_notMem hc]
      exact Nat.zero_le 1
  · intro h
    refine ⟨fun side c hc => ?_, fun side w hw => ?_⟩
    · rw [countP_eq_count d side hc.norm_eq]
      exact Multiset.count_eq_one_of_mem (h side).1 (((h side).2 c).mpr hc)
    · refine ⟨(w.endOn side).norm, ((h side).2 _).mp (mem_endsOn.mpr ⟨w, hw, rfl⟩), ?_⟩
      rw [Connector.same_iff_norm, Connector.norm_norm]

section Listed

/-- How many ports the box has on a side; none if it does not answer. -/
def arity (s : Store) (side : Side) (b : Value) : Nat :=
  match s.ports side b with
  | .ok types => match types.length with
    | .ok n => n
    | .error _ => 0
  | .error _ => 0

def portsOn (s : Store) (d : Diagram) (side : Side) : List Connector :=
  (List.range (d.rim side).length).map (.numbered (boundary side) side) ++
    d.boxes.flatMap fun e => (List.range (s.arity side e.2)).map (.numbered e.1 side)

theorem Arity.eq (h : s.Arity side b n) : s.arity side b = n := by
  obtain ⟨types, ht, hn⟩ := h
  simp [arity, ht, hn]

theorem lt_arity {i : Nat} : i < s.arity side b ↔ ∃ n, s.Arity side b n ∧ i < n := by
  constructor
  · intro h
    unfold arity at h
    split at h
    · next types ht =>
      split at h
      · next n hn => exact ⟨n, ⟨types, ht, hn⟩, h⟩
      · exact absurd h (Nat.not_lt_zero i)
    · exact absurd h (Nat.not_lt_zero i)
  · rintro ⟨n, hn, hi⟩
    rwa [hn.eq]

theorem mem_portsOn (hd : d.Consistent) : c ∈ s.portsOn d side ↔ s.Port d side c := by
  simp only [portsOn, List.mem_append, List.mem_map, List.mem_range, List.mem_flatMap]
  constructor
  · rintro (⟨i, hi, rfl⟩ | ⟨⟨v, b⟩, hv, i, hi, rfl⟩)
    · exact .edge hi
    · obtain ⟨n, hn, hi⟩ := lt_arity.mp hi
      exact .box (Table.get?_of_mem hd.boxes_nodup hv) hn hi
  · intro h
    cases h with
    | @edge i hi => exact Or.inl ⟨i, hi, rfl⟩
    | @box v n i b hv hn hi => exact Or.inr ⟨(v, b), Table.mem_of_get? hv, i, lt_arity.mpr ⟨n, hn, hi⟩, rfl⟩

theorem nodup_portsOn (hd : d.Consistent) : (s.portsOn d side).Nodup := by
  have hinj : ∀ v n, ((List.range n).map (Connector.numbered v side)).Nodup := fun v n =>
    List.nodup_range.map fun _ _ h => (Connector.numbered_inj.mp h).2
  refine List.nodup_append.mpr ⟨hinj _ _, List.nodup_flatMap.mpr ⟨fun e _ => hinj _ _, ?_⟩, ?_⟩
  · refine (List.pairwise_map.mp hd.boxes_nodup).imp fun {e e'} hne => ?_
    refine List.disjoint_left.mpr fun c hc hc' => ?_
    obtain ⟨i, -, rfl⟩ := List.mem_map.mp hc
    obtain ⟨j, -, hj⟩ := List.mem_map.mp hc'
    exact hne (Connector.numbered_inj.mp hj).1.symm
  · rintro c hc c' hc' rfl
    obtain ⟨i, -, rfl⟩ := List.mem_map.mp hc
    obtain ⟨e, he, hc'⟩ := List.mem_flatMap.mp hc'
    obtain ⟨j, -, hj⟩ := List.mem_map.mp hc'
    have h2 := hd.two_le (List.mem_map_of_mem he)
    have hlt := boundary_lt side
    have heq := (Connector.numbered_inj.mp hj).1
    omega

/-- A diagram is linear if the ends of its wires are all ports, each once. -/
theorem linear_iff_ports (hd : d.Consistent) :
    s.Linear d ↔ ∀ side, d.endsOn side = (s.portsOn d side : Multiset Connector) := by
  rw [linear_iff]
  refine forall_congr' fun side => ?_
  constructor
  · rintro ⟨hn, hmem⟩
    refine (Multiset.Nodup.ext hn (Multiset.coe_nodup.mpr (nodup_portsOn hd))).mpr fun c => ?_
    rw [hmem, Multiset.mem_coe, mem_portsOn hd]
  · intro h
    rw [h]
    exact ⟨Multiset.coe_nodup.mpr (nodup_portsOn hd), fun c => by rw [Multiset.mem_coe, mem_portsOn hd]⟩

end Listed

theorem Linear.port (h : s.Linear d) (hc : c ∈ d.endsOn side) : s.Port d side c :=
  ((linear_iff.mp h side).2 c).mp hc

theorem Linear.mem_endsOn (h : s.Linear d) (hc : s.Port d side c) : c ∈ d.endsOn side :=
  ((linear_iff.mp h side).2 c).mpr hc

/-- What a box answers depends on the objects that it refers to. -/
theorem ports_congr (h : ∀ r ∈ b.refs, s'.objects[r]? = s.objects[r]?) (side : Side) :
    s'.ports side b = s.ports side b := by
  cases b with
  | ref r => simp only [ports, h r List.mem_cons_self]
  | atomic e =>
    cases e with
    | ref r => simp only [ports, exprPorts, h r List.mem_cons_self]
    | _ => rfl
  | _ => rfl

/-- A box that was there answers for its ports as before when only a diagram has changed, and not its
rows. -/
theorem ports_eq_of_frame (hf : Frame host s s') (hd : s.diagram? host = some d)
    (hd' : s'.diagram? host = some d') (hi : d'.inputs = d.inputs) (ho : d'.outputs = d.outputs)
    (hb : ∀ r ∈ b.refs, r < s.objects.length) (side : Side) : s'.ports side b = s.ports side b := by
  by_cases hhost : host ∈ b.refs
  · cases b with
    | ref r =>
      obtain rfl := List.mem_singleton.mp hhost
      rw [ports_of_diagram side hd, ports_of_diagram side hd']
      cases side
      · simp only [row, hi]
      · simp only [row, ho]
    | atomic e =>
      cases e with
      | ref r =>
        obtain rfl := List.mem_singleton.mp hhost
        simp only [ports, exprPorts, diagram?_eq_some.mp hd, diagram?_eq_some.mp hd']
      | _ => rfl
    | _ => rfl
  · refine ports_congr (fun r hr => ?_) side
    have hget := List.getElem?_eq_getElem (hb r hr)
    exact (hf.same r _ (fun he => hhost (he ▸ hr)) hget).trans hget.symm

theorem arity_of_diagram {r : Ref} (hd : s.diagram? r = some d) :
    s.Arity side (.ref r) n ↔ (d.row side).length = n := by
  simp [Arity, ports_of_diagram side hd, Value.length]

/-- A box that came in has as many ports as it had, also if it is a copy. -/
theorem Entered.arity_iff (h : s.Entered host d s' b b') (hd : s.diagram? host = some d)
    (hd' : s'.diagram? host = some d') (hi : d'.inputs = d.inputs) (ho : d'.outputs = d.outputs)
    (hb : ∀ r ∈ b.refs, r < s.objects.length) : s'.Arity side b' n ↔ s.Arity side b n := by
  obtain ⟨t, d₁, hf, hd₁, hi₁, ho₁, hf', hheld⟩ := h
  have hbt : ∀ r ∈ b.refs, r < t.objects.length := fun r hr => Nat.lt_of_lt_of_le (hb r hr) hf.length_le
  have hbefore : t.Arity side b n ↔ s.Arity side b n := by
    simp only [Arity, ports_eq_of_frame hf hd hd₁ hi₁ ho₁ hb]
  have hafter : s'.Arity side b n ↔ t.Arity side b n := by
    simp only [Arity, ports_eq_of_frame hf' hd₁ hd' (hi.trans hi₁.symm) (ho.trans ho₁.symm) hbt]
  refine Iff.trans ?_ hbefore
  cases b with
  | ref r =>
    rcases hheld.ref_cases with ⟨k, hk, hcopy⟩ | ⟨o, -, -, rfl⟩ | hmissing
    · obtain ⟨r', f, rfl, hget⟩ := hcopy.exists_ref (diagram?_eq_some.mp hk)
      rw [arity_of_diagram (diagram?_eq_some.mpr hget), arity_of_diagram hk, row_rename, Value.renameAll_eq,
        List.length_map]
    · exact hafter
    · rw [List.getElem?_eq_getElem (hbt r List.mem_cons_self)] at hmissing
      cases hmissing
  | _ =>
    obtain rfl : b' = _ := hheld
    exact hafter

end Store

end StringDiagram
