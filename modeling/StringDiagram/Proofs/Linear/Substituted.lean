import StringDiagram.Proofs.Linear.Spliced
import StringDiagram.Proofs.Substitution.Within

/-! # Substitution keeps diagrams linear

A linear diagram can be put in the place of a box with as many ports, in a linear host, and the host is
linear then: `substitute_linear`. The box may feed itself; circles that come about go. -/
namespace StringDiagram
open Diagram

namespace Action
open Store
variable {s s' : Store} {host inner : Ref} {d e d' : Diagram} {v : Nat}

/-- The boxes that came in, as they came, also those that lead to the host. -/
theorem inline_entered (hd : s.diagram? host = some d) (he : s.diagram? inner = some e) (hcd : d.Consistent)
    (hce : e.Consistent) (hdir : e.Directed) (hv : v ∈ d.boxes.keys)
    (hrun : (inline host v inner).perform s = (.ok (), s')) (hd' : s'.diagram? host = some d') {i : Nat}
    {b : Value} (hi : e.boxes.values[i]? = some b) :
    ∃ b', d'.boxes.get? (d.next + i) = some b' ∧ s.Entered host d s' b b' := by
  obtain ⟨s₁, held, d₂, -, -, hheld, hsplice, -, hf', hfound⟩ := inline_cases hd he hcd hrun
  obtain rfl : d' = d₂.without v := Option.some.inj (hd'.symm.trans hfound)
  have hl : held.length = e.boxes.length := by rw [← hheld.length_eq, Table.values, List.length_map]
  obtain ⟨d₃, hsplice', -, hr, -⟩ := exists_splice hcd hce hdir hv hl
  obtain rfl : d₂ = d₃ := congrArg Prod.fst (hsplice.symm.trans hsplice')
  obtain ⟨hlt, rfl⟩ := List.getElem?_eq_some_iff.mp hi
  have hlt' : i < held.length := hheld.length_eq ▸ hlt
  have hne : v ≠ d.next + i := by
    have hbelow := hcd.below_next v (Consistent.box_live hv)
    omega
  refine ⟨held[i], ?_, (hheld.get hlt hlt').after hf'⟩
  change (d₂.boxes.remove v).get? _ = _
  rw [Table.get?_remove, if_neg hne, hr.boxes]
  exact get?_withBoxes hcd (List.getElem?_eq_getElem hlt')

end Action

namespace Store
variable {s s' : Store} {host : Ref} {d e d' : Diagram} {v : Nat} {box : Value} {side : Side} {c : Connector}

/-- No wire of a linear diagram leaves its outputs or enters its inputs. -/
theorem Linear.directed (h : s.Linear e) (he : e.Consistent) : e.Directed := by
  have hoff : ∀ side c, s.Port e side c → c.isOn (boundary side.other) = false := by
    intro side c hc
    cases hc with
    | edge _ => cases side <;> simp [boundary, Side.other, inputId, outputId]
    | box hw _ _ =>
      have h2 := he.two_le (Table.mem_keys_of_get? hw)
      have hlt := boundary_lt side.other
      rw [Connector.isOn_numbered, decide_eq_false_iff_not]
      omega
  intro w hw
  have hport : ∀ side, s.Port e side (w.endOn side).norm := fun side =>
    h.port (Store.mem_endsOn.mpr ⟨w, hw, rfl⟩)
  constructor
  · rw [← Connector.isOn_norm]
    exact hoff .output _ (hport .output)
  · rw [← Connector.isOn_norm]
    exact hoff .input _ (hport .input)

/-- A port that is not at the boundary is a port of a box, and it comes in with that box. -/
theorem Port.place (h : s.Port e side c) (he : e.Consistent) (hoff : c.isOn (boundary side) = false)
    (d : Diagram) : ∃ j u b n i, e.boxes[j]? = some (u, b) ∧ s.Arity side b n ∧ i < n ∧
      c = .numbered u side i ∧ (inserted d e).place c = .numbered (d.next + j) side i := by
  cases h with
  | edge _ => simp at hoff
  | @box u n i b hu hn hi =>
    obtain ⟨j, -, hj, hkey⟩ := exists_place hu
    refine ⟨j, u, b, n, i, hj, hn, hi, rfl, ?_⟩
    rw [OnBox.place_eq he ⟨u, hkey, Value.boxId?_ofNat u⟩]
    rfl

theorem Port.lt_next (h : s.Port d side c) (hd : d.Consistent) : ∃ n i, c = .numbered n side i ∧ n < d.next := by
  cases h with
  | edge _ =>
    have hlt := boundary_lt side
    exact ⟨_, _, rfl, Nat.lt_of_lt_of_le hlt hd.two_le_next⟩
  | box hv _ _ => exact ⟨_, _, rfl, hd.below_next _ (Consistent.box_live (Table.mem_keys_of_get? hv))⟩

section Inlined
variable (h : Inlined s s' host v d e d') (hd : s.diagram? host = some d) (hcd : d.Consistent)
  (hce : e.Consistent) (hv : v ∈ d.boxes.keys)
  (hold : ∀ b ∈ d.boxes.values, ∀ side n, s'.Arity side b n ↔ s.Arity side b n)
  (hnew : ∀ j b, e.boxes.values[j]? = some b → ∃ b', d'.boxes.get? (d.next + j) = some b' ∧
    ∀ side n, s'.Arity side b' n ↔ s.Arity side b n)
include h hcd hce hv hold hnew

/-- The ports of the host are its own but those of box `v`, and those of the boxes that came in. -/
theorem port_iff : s'.Port d' side c ↔ s.Port d side c ∧ c.isOn v = false ∨
    ∃ c₀, s.Port e side c₀ ∧ c₀.isOn (boundary side) = false ∧ (inserted d e).place c₀ = c := by
  have hrim : d'.rim side = d.rim side := by
    cases side
    · exact h.outputs
    · exact h.inputs
  constructor
  · intro hc
    cases hc with
    | edge hi =>
      refine Or.inl ⟨.edge (hrim ▸ hi), ?_⟩
      have hlt := boundary_lt side
      have h2 := hcd.two_le hv
      rw [Connector.isOn_numbered, decide_eq_false_iff_not]
      omega
    | @box w n i b hw hn hi =>
      rcases h.mem_keys.mp (Table.mem_keys_of_get? hw) with ⟨hwd, hne⟩ | hwe
      · rw [h.get?_old hwd hne] at hw
        refine Or.inl ⟨.box hw ((hold b (Table.mem_values_of_get? hw) side n).mp hn) hi, ?_⟩
        simpa using hne
      · obtain ⟨j, rfl⟩ := Nat.exists_eq_add_of_le hwe.1
        have hj : j < e.boxes.length := Nat.add_lt_add_iff_left.mp hwe.2
        obtain ⟨⟨u, b₀⟩, hub⟩ : ∃ ub, e.boxes[j]? = some ub := ⟨_, List.getElem?_eq_getElem hj⟩
        obtain ⟨b', hb', har⟩ := hnew j b₀ (Table.value_of_getElem? hub)
        obtain rfl := Option.some.inj (hw.symm.trans hb')
        have hu : e.boxes.get? u = some b₀ := Table.get?_of_mem hce.boxes_nodup (List.mem_of_getElem? hub)
        have hoff : (Connector.numbered u side i).isOn (boundary side) = false := by
          have h2 := hce.two_le (Table.mem_keys_of_get? hu)
          have hlt := boundary_lt side
          rw [Connector.isOn_numbered, decide_eq_false_iff_not]
          omega
        refine Or.inr ⟨.numbered u side i, .box hu ((har side n).mp hn) hi, hoff, ?_⟩
        rw [OnBox.place_eq hce ⟨u, Table.key_of_getElem? hub, Value.boxId?_ofNat u⟩]
        rfl
  · rintro (⟨hc, hoff⟩ | ⟨c₀, hc, hoff, rfl⟩)
    · cases hc with
      | edge hi => exact .edge (hrim.symm ▸ hi)
      | @box w n i b hw hn hi =>
        have hne : w ≠ v := by simpa using hoff
        refine .box ((h.get?_old (Table.mem_keys_of_get? hw) hne).trans hw)
          ((hold b (Table.mem_values_of_get? hw) side n).mpr hn) hi
    · obtain ⟨j, u, b, n, i, hj, hn, hi, -, hplace⟩ := hc.place hce hoff d
      obtain ⟨b', hb', har⟩ := hnew j b (Table.value_of_getElem? hj)
      rw [hplace]
      exact .box hb' ((har side n).mpr hn) hi

theorem linear_of_inlined (hld : s.Linear d) (hle : s.Linear e) (hbox : d.boxes.get? v = some box)
    (hfit : ∀ side, s.Arity side box (e.row side).length) : s'.Linear d' := by
  refine linear_iff.mpr fun side => ?_
  have hends := endsOn_spliced hld hle hcd hce hbox hfit h.wires side
  constructor
  · rw [hends]
    refine Multiset.nodup_add.mpr ⟨?_, ?_, ?_⟩
    · exact (linear_iff.mp hld side).1.filter _
    · refine ((linear_iff.mp hle side).1.filter _).map_on fun c hc c' hc' heq => ?_
      obtain ⟨hc, hoff⟩ := Multiset.mem_filter.mp hc
      obtain ⟨hc', hoff'⟩ := Multiset.mem_filter.mp hc'
      obtain ⟨j, u, b, n, i, hj, -, -, rfl, hplace⟩ := (hle.port hc).place hce hoff d
      obtain ⟨j', u', b', n', i', hj', -, -, rfl, hplace'⟩ := (hle.port hc').place hce hoff' d
      rw [hplace, hplace'] at heq
      obtain ⟨hjj, rfl⟩ := Connector.numbered_inj.mp heq
      obtain rfl : j = j' := Nat.add_left_cancel hjj
      cases hj.symm.trans hj'
      rfl
    · rw [Multiset.disjoint_left]
      intro c hc hc'
      obtain ⟨c₀, hc₀, rfl⟩ := Multiset.mem_map.mp hc'
      obtain ⟨hc₀, hoff⟩ := Multiset.mem_filter.mp hc₀
      obtain ⟨j, -, -, -, i, -, -, -, -, hplace⟩ := (hle.port hc₀).place hce hoff d
      obtain ⟨n, i', heq, hlt⟩ := (hld.port (Multiset.mem_of_mem_filter hc)).lt_next hcd
      rw [hplace] at heq
      obtain ⟨hn, -⟩ := Connector.numbered_inj.mp heq
      omega
  · intro c
    rw [hends, Multiset.mem_add, Multiset.mem_filter, Multiset.mem_map, port_iff h hcd hce hv hold hnew]
    refine or_congr (and_congr_left fun _ => (linear_iff.mp hld side).2 c) (exists_congr fun c₀ => ?_)
    rw [Multiset.mem_filter, (linear_iff.mp hle side).2 c₀, and_assoc]

end Inlined

end Store

namespace Action
open Store
variable {s s' : Store} {host inner : Ref} {d e d' : Diagram} {v : Nat} {box : Value}

theorem inline_linear (hd : s.diagram? host = some d) (he : s.diagram? inner = some e)
    (hbd : ∀ b ∈ d.boxes.values, ∀ q ∈ b.refs, q < s.objects.length)
    (hbe : ∀ b ∈ e.boxes.values, ∀ q ∈ b.refs, q < s.objects.length) (hcd : d.Consistent) (hce : e.Consistent) (hld : s.Linear d) (hle : s.Linear e)
    (hbox : d.boxes.get? v = some box) (hfit : ∀ side, s.Arity side box (e.row side).length)
    (hrun : (inline host v inner).perform s = (.ok (), s')) (h : Inlined s s' host v d e d') : s'.Linear d' := by
  have hv := Table.mem_keys_of_get? hbox
  refine linear_of_inlined h hcd hce hv (fun b hb side n => ?_) (fun j b hj => ?_) hld hle hbox hfit
  · simp only [Arity, ports_eq_of_frame h.frame hd h.found h.inputs h.outputs (hbd b hb)]
  · obtain ⟨b', hb', hentered⟩ := inline_entered hd he hcd hce (hle.directed hce) hv hrun h.found hj
    exact ⟨b', hb', fun side n => hentered.arity_iff hd h.found h.inputs h.outputs
      (hbe b (List.mem_of_getElem? hj))⟩

end Action

namespace Diagram

end Diagram

end StringDiagram
