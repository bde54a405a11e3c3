import StringDiagram.Proofs.Validity.Splicing
import StringDiagram.Proofs.Substitution.Inlined

/-! # Substitution keeps diagrams valid

If a valid diagram is substituted for a box with the same rows in a valid host, and that succeeds, the host
is valid afterwards: `substitute_valid`. A nested diagram comes in as a copy, so this needs that none of its
types that a wire relies on is an object with an identity; the copy has another: `substitute_nested_invalid`. -/
namespace StringDiagram
open Diagram

namespace Value

theorem entries?_rename (f : Ref → Ref) (v : Value) :
    (v.rename f).entries? = v.entries?.map (renameAll f) := by
  cases v with
  | text t => simp [rename, entries?, Text.characters, renameAll_eq, Function.comp_def]
  | _ => rfl

/-- The positions of types stay when they are renamed. -/
theorem typeAt_rename (f : Ref → Ref) (types port : Value) :
    (types.rename f).typeAt port = (types.typeAt port).map (rename f) := by
  unfold typeAt
  rw [entries?_rename]
  cases types.entries? with
  | none => rfl
  | some as => cases port.boxId? <;> simp [renameAll_eq]

end Value

namespace Diagram
variable {d e : Diagram} {v : Value} {held : List Value} {b : Value}

theorem row_rename (f : Ref → Ref) (d : Diagram) (side : Side) :
    (d.rename f).row side = Value.renameAll f (d.row side) := by
  cases side <;> rfl

theorem get?_withBoxes_old {n : Nat} (h : d.boxes.get? n = some b) :
    (d.withBoxes held).boxes.get? n = some b := by
  rw [boxes_withBoxes, Table.get?_append, h, Option.some_or]

theorem box_withBoxes (h : d.box v = .ok b) : (d.withBoxes held).box v = .ok b := by
  obtain ⟨n, hv, hn⟩ := Store.box_eq_ok.mp h
  exact Store.box_eq_ok.mpr ⟨n, hv, get?_withBoxes_old hn⟩

theorem get?_withBoxes (hd : d.Consistent) {i : Nat} (hi : held[i]? = some b) :
    (d.withBoxes held).boxes.get? (d.next + i) = some b := by
  have hold : d.boxes.get? (d.next + i) = none := by
    rw [Table.get?_eq_none]
    intro hmem
    have hlt := hd.below_next _ (Consistent.box_live hmem)
    omega
  rw [boxes_withBoxes, Table.get?_append, hold, Option.none_or]
  refine Table.get?_zip List.nodup_range' (by simp) ?_ hi
  rw [List.getElem?_range' (List.getElem?_eq_some_iff.mp hi).1, Nat.one_mul]

/-- Only boxes of the inserted diagram have new identifiers. -/
theorem move_cases (he : e.Consistent) {c c' : Connector} (h : (inserted d e).move c = .ok c') :
    ∃ u i, c.box.boxId? = some u ∧ u ∈ e.boxes.keys ∧ e.boxes.keys[i]? = some u ∧
      c' = c.withBox (.ofNat (d.next + i)) := by
  obtain ⟨⟨u, n⟩, hres, h⟩ := bind_eq_ok.mp h
  obtain ⟨hu, hn⟩ := Table.resolve_eq_ok.mp hres
  have hmem : u ∈ e.boxes.keys := by
    have hmem := Table.mem_keys_of_get? hn
    rwa [inserted, Table.keys, List.map_fst_zip (by simp)] at hmem
  obtain ⟨i, hi⟩ := List.mem_iff_getElem?.mp hmem
  rw [get?_inserted he hi, Option.some.injEq] at hn
  cases h
  exact ⟨u, i, hu, hmem, hi, by rw [hn]⟩

end Diagram

namespace Store
variable {s s' : Store} {host : Ref} {d d' e : Diagram} {c c' : Connector} {a x types box : Value}
  {side : Side} {port : Value} {w : Wire} {held : List Value}

/-- The box and the diagram have the same types on both sides. -/
def SameRows (s : Store) (box : Value) (e : Diagram) : Prop :=
  ∀ side, ∃ types as, s.ports side box = .ok types ∧ s.collect types = .ok as ∧
    (Value.row as).same (.row (e.row side)) = true

/-- Wherever a wire is at a port of a nested diagram, nothing in its type has an identity of its own. -/
def Copyable (s : Store) (e : Diagram) : Prop :=
  ∀ w ∈ e.wires, ∀ c, c = w.source ∨ c = w.target → ∀ r k a, e.box c.box = .ok (.ref r) →
    s.diagram? r = some k → s.Types e c a → a.refs = []

/-- It is enough that no nested diagram has such a type at all. -/
theorem copyable_of_plain (he : e.Consistent) (h : ∀ r k, .ref r ∈ e.boxes.values → s.diagram? r = some k →
    ∀ side, Value.refsAll (k.row side) = []) : s.Copyable e := by
  intro w _ c _ r k a hbox hk ha
  obtain ⟨u, hu, hget⟩ := box_eq_ok.mp hbox
  obtain ⟨box, types, hget', hp, ha⟩ := (Types.box_iff hu (he.two_le (Table.mem_keys_of_get? hget))).mp ha
  obtain rfl : Value.ref r = box := Option.some.inj (hget.symm.trans hget')
  obtain rfl : Value.list (k.row c.side) = types :=
    Except.ok.inj ((ports_of_diagram c.side hk).symm.trans hp)
  simp only [Value.typeAt, Value.entries?, Option.bind_eq_bind, Option.bind_some,
    Option.bind_eq_some_iff] at ha
  obtain ⟨i, -, ha⟩ := ha
  have hplain := h r k (Table.mem_values_of_get? hget) hk c.side
  rw [Value.refsAll_eq, List.flatMap_eq_nil_iff] at hplain
  exact hplain a (List.mem_of_getElem? ha)

theorem sameRows_diagram {r : Ref} (h : s.diagram? r = some e) : s.SameRows (.ref r) e := fun side =>
  ⟨_, e.row side, ports_of_diagram side h, rfl, Value.same_refl _⟩

theorem collect_of_entries {as : List Value} (h : types.entries? = some as) : s.collect types = .ok as := by
  cases types with
  | text _ | list _ | tuple _ | row _ =>
    cases h
    rfl
  | _ => cases h

/-- The types at the same port of the box and of the boundary are the same. -/
theorem SameRows.same (h : s.SameRows box e) (hs : KeepsPorts s s') (hp : s'.ports side box = .ok types)
    (hx : types.typeAt port = some x) (ha : (Value.list (e.row side)).typeAt port = some a) :
    x.same a = true := by
  obtain ⟨types', as, hp', hcol, hsame⟩ := h side
  obtain rfl : types' = types := Except.ok.inj ((hs _ _ _ hp').symm.trans hp)
  simp only [Value.typeAt, Option.bind_eq_bind, Option.bind_eq_some_iff] at hx ha
  obtain ⟨bs, hbs, i, hi, hx⟩ := hx
  obtain ⟨cs, hcs, j, hj, ha⟩ := ha
  cases hcs
  rw [hi, Option.some.injEq] at hj
  subst hj
  rw [collect_of_entries hbs, Except.ok.injEq] at hcol
  subst hcol
  have hnorm : bs.map Value.norm = (e.row side).map Value.norm := by
    simpa [Value.norm, Value.normAll_eq] using Value.same_iff.mp hsame
  have hat := congrArg (fun l => l[i]?) hnorm
  simp only [List.getElem?_map, hx, ha, Option.map_some, Option.some.injEq] at hat
  exact Value.same_iff.mpr hat

/-- A box that came in has the types that it had, unless it is a diagram and the copy differs in them. -/
theorem Entered.typeAt {b b' : Value} (h : s.Entered host d s' b b') (hd : s.diagram? host = some d)
    (hd' : s'.diagram? host = some d') (hi : d'.inputs = d.inputs) (ho : d'.outputs = d.outputs)
    (hp : s.ports side b = .ok types) (ha : types.typeAt port = some a)
    (hplain : ∀ r k, b = .ref r → s.diagram? r = some k → a.refs = []) :
    ∃ types', s'.ports side b' = .ok types' ∧ types'.typeAt port = some a := by
  obtain ⟨t, d₁, hf, hd₁, hi₁, ho₁, hf', hheld⟩ := h
  have hpt := keepsPorts_of_frame hf hd hd₁ hi₁ ho₁ _ _ _ hp
  have hkeeps : KeepsPorts t s' := keepsPorts_of_frame hf' hd₁ hd' (hi.trans hi₁.symm) (ho.trans ho₁.symm)
  cases b with
  | ref r =>
    rcases hheld.ref_cases with ⟨k, hk, hcopy⟩ | ⟨o, -, -, rfl⟩ | hmissing
    · obtain ⟨r', f, rfl, hget⟩ := hcopy.exists_ref (diagram?_eq_some.mp hk)
      obtain rfl : Value.list (k.row side) = types :=
        Except.ok.inj ((ports_of_diagram side hk).symm.trans hpt)
      have hrefs : a.refs = [] := by
        rcases eq_or_ne r host with rfl | hne
        · exact hplain r d rfl hd
        · cases ho : s.objects[r]? with
          | none => simp [ports, ho] at hp
          | some o =>
            have ho' := hf.same r o hne ho
            rw [diagram?_eq_some.mp hk, Option.some.injEq] at ho'
            exact hplain r k rfl (diagram?_eq_some.mpr (ho.trans (congrArg some ho'.symm)))
      refine ⟨_, ports_of_diagram side (diagram?_eq_some.mpr hget), ?_⟩
      rw [row_rename]
      refine (Value.typeAt_rename f (.list (k.row side)) port).trans ?_
      rw [ha, Option.map_some, Value.rename_eq_self f a hrefs]
    · exact ⟨types, hkeeps _ _ _ hpt, ha⟩
    · simp [ports, hmissing] at hpt
  | _ =>
    obtain rfl : b' = _ := hheld
    exact ⟨types, hkeeps _ _ _ hpt, ha⟩

/-- The boxes of `e` have the same types under their new identifiers. -/
theorem Types.move (h : s.Types e c a) (hcd : d.Consistent) (hce : e.Consistent)
    (hd : s.diagram? host = some d) (hd' : s'.diagram? host = some (d.withBoxes held))
    (hheld : List.Forall₂ (s.Entered host d s') e.boxes.values held)
    (hplain : ∀ r k, e.box c.box = .ok (.ref r) → s.diagram? r = some k → a.refs = [])
    (hm : (inserted d e).move c = .ok c') : s'.Types (d.withBoxes held) c' a := by
  obtain ⟨u, i, hu, hmem, hi, rfl⟩ := move_cases hce hm
  obtain ⟨box, types, hget, hports, ha⟩ := (Types.box_iff hu (hce.two_le hmem)).mp h
  obtain ⟨hlt, rfl⟩ := List.getElem?_eq_some_iff.mp
    (Table.value_of_getElem? (Table.getElem?_of_key hce.boxes_nodup hi hget))
  have hlt' : i < held.length := hheld.length_eq ▸ hlt
  have hrows := withBoxes_frame d held
  obtain ⟨types', hports', ha'⟩ := (hheld.get hlt hlt').typeAt hd hd' hrows.2.1 hrows.2.2 hports ha
    fun r k hr => hplain r k (hr ▸ box_eq_ok.mpr ⟨u, hu, hget⟩)
  exact (Types.box_iff (Value.boxId?_ofNat _) (Nat.le_add_right_of_le hcd.two_le_next)).mpr
    ⟨_, types', get?_withBoxes hcd (List.getElem?_eq_getElem hlt'), hports', ha'⟩

/-- Every wire of `e` has the types at its ends that it finds in the host in the place of box `n`. -/
theorem joins_of_valid {n : Nat} (hcd : d.Consistent) (hce : e.Consistent) (hd : s.diagram? host = some d)
    (hd' : s'.diagram? host = some (d.withBoxes held)) (hf : Frame host s s')
    (hheld : List.Forall₂ (s.Entered host d s') e.boxes.values held) (hn : d.boxes.get? n = some box)
    (hrows : s.SameRows box e) (hcopy : s.Copyable e) (hw : w ∈ e.wires) (hvalid : s.ValidWire e w) :
    s'.Joins (d.withBoxes held) n (inserted d e) w := by
  have hframe := withBoxes_frame d held
  have hkeeps : KeepsPorts s s' := keepsPorts_of_frame hf hd hd' hframe.2.1 hframe.2.2
  have h2 := hcd.two_le (Table.mem_keys_of_get? hn)
  have hport : ∀ {c x}, c.box = .ofNat n → s'.Types (d.withBoxes held) c x →
      ∃ types, s'.ports c.side box = .ok types ∧ types.typeAt c.port = some x := by
    intro c x hc hx
    obtain ⟨box', types, hn', hp, hx⟩ := (Types.box_iff (hc ▸ Value.boxId?_ofNat n) h2).mp hx
    obtain rfl : box = box' := Option.some.inj ((get?_withBoxes_old hn).symm.trans hn')
    exact ⟨types, hp, hx⟩
  obtain ⟨a, b, ha, hb, hab⟩ := hvalid
  refine ⟨a, b, hab, ⟨fun hc x hx => ?_, fun _ c' hm => ?_⟩, ⟨fun hc x hx => ?_, fun _ c' hm => ?_⟩⟩
  · obtain ⟨types, hp, hx⟩ := hport rfl hx
    exact hrows.same hkeeps hp hx (ha.of_input hc).2
  · exact ha.move hcd hce hd hd' hheld (fun r k hr hk => hcopy w hw _ (Or.inl rfl) r k a hr hk ha) hm
  · obtain ⟨types, hp, hx⟩ := hport rfl hx
    exact hrows.same hkeeps hp hx (hb.of_output hc).2
  · exact hb.move hcd hce hd hd' hheld (fun r k hr hk => hcopy w hw _ (Or.inr rfl) r k b hr hk hb) hm

end Store

namespace Action
open Store
variable {s s' : Store} {host inner : Ref} {d e : Diagram} {n : Nat} {v sub box : Value}

/-- What was done if a box was replaced. -/
theorem inline_cases (hd : s.diagram? host = some d) (he : s.diagram? inner = some e) (hcd : d.Consistent)
    (hrun : (inline host n inner).perform s = (.ok (), s')) : ∃ s₁ held d₂,
      s₁.diagram? host = some (d.withBoxes held) ∧ Frame host s s₁ ∧
      List.Forall₂ (s.Entered host d s₁) e.boxes.values held ∧
      (d.withBoxes held).splice n (inserted d e) e.wires = (d₂, none) ∧ d₂.Consistent ∧
      Frame host s₁ s' ∧ s'.diagram? host = some (d₂.without n) := by
  obtain ⟨s₁, held, hd₁, -, hf, -, hheld, -, hperform⟩ := perform_inline hd he n
  have hcd₂ := (hcd.withBoxes held).splice n (inserted d e) e.wires
  rw [hperform] at hrun
  rcases hsplice : (d.withBoxes held).splice n (inserted d e) e.wires with ⟨d₂, _ | fault⟩
  · rw [hsplice] at hrun hcd₂
    dsimp only at hrun
    have hd₂ := Store.diagram?_set hd₁ d₂
    cases hremove : d₂.removeBox (.ofNat n) with
    | error fault => simp [removeBox, perform_bind, perform_diagram hd₂, hremove] at hrun
    | ok removed =>
      obtain ⟨box, d₃⟩ := removed
      obtain ⟨m, hm, -, rfl⟩ := hcd₂.removeBox_eq_ok.mp hremove
      obtain rfl : n = m := by simpa using hm
      rw [perform_bind, perform_removeBox hd₂ hremove] at hrun
      obtain rfl := (Prod.mk.inj hrun).2
      have hf₂ : Frame host s₁ { s₁ with objects := s₁.objects.set host (.diagram d₂) } := .of_set rfl
      exact ⟨s₁, held, d₂, hd₁, hf, hheld, hsplice, hcd₂, hf₂.trans (.of_set rfl), Store.diagram?_set hd₂ _⟩
  · rw [hsplice] at hrun
    cases hrun

/-- The boxes of the host after a box was replaced. -/
theorem inline_boxes (hd : s.diagram? host = some d) (he : s.diagram? inner = some e) (hcd : d.Consistent)
    (hn : n ∈ d.boxes.keys) (hrun : (inline host n inner).perform s = (.ok (), s')) : ∃ d' held, s'.diagram? host = some d' ∧
      d'.Consistent ∧ Frame host s s' ∧ List.Forall₂ (s.Entered host d s') e.boxes.values held ∧
      d'.boxes = d.boxes.remove n ++ (List.range' d.next held.length).zip held := by
  obtain ⟨s₁, held, d₂, hd₁, hf, hheld, hsplice, hcd₂, hf', hd'⟩ := inline_cases hd he hcd hrun
  have hr := splice_rewires hsplice
  refine ⟨_, held, hd', hcd₂.without ?_, hf.trans hf', hheld.imp fun _ _ h => h.after hf', ?_⟩
  · rw [hr.boxes, boxes_withBoxes, Table.keys_append]
    exact List.mem_append_left _ hn
  · change d₂.boxes.remove n = _
    rw [hr.boxes, boxes_withBoxes, Table.remove_append, Table.remove_eq_self (hcd.not_mem_range' hn held)]

/-- A valid host stays valid when a valid diagram takes the place of a box with the same rows. -/
theorem inline_valid (hd : s.diagram? host = some d) (he : s.diagram? inner = some e) (hcd : d.Consistent)
    (hce : e.Consistent) (hvd : s.validate d = .ok ()) (hve : s.validate e = .ok ())
    (hn : d.boxes.get? n = some box) (hrows : s.SameRows box e) (hcopy : s.Copyable e)
    (hrun : (inline host n inner).perform s = (.ok (), s')) :
    ∃ d', s'.diagram? host = some d' ∧ s'.validate d' = .ok () := by
  obtain ⟨s₁, held, d₂, hd₁, hf, hheld, hsplice, hcd₂, hf', hd'⟩ := inline_cases hd he hcd hrun
  have hrows₁ := withBoxes_frame d held
  have hkeeps : KeepsPorts s s₁ := keepsPorts_of_frame hf hd hd₁ hrows₁.2.1 hrows₁.2.2
  have hlive : n ∈ (d.withBoxes held).live := by
    rw [live_withBoxes]
    exact List.mem_append_left _ (Consistent.box_live (Table.mem_keys_of_get? hn))
  have hvalid : ∀ y ∈ (d.withBoxes held).wires, s₁.ValidWire (d.withBoxes held) y := by
    intro y hy
    rw [hrows₁.1] at hy
    exact (validate_eq_ok.mp hvd y hy).transfer hkeeps hrows₁.2.1 hrows₁.2.2 fun c _ box => box_withBoxes
  have hjoins : ∀ w ∈ e.wires, s₁.Joins (d.withBoxes held) n (inserted d e) w := fun w hw =>
    joins_of_valid hcd hce hd hd₁ hf hheld hn hrows hcopy hw (validate_eq_ok.mp hve w hw)
  obtain ⟨hr, hvalid₂⟩ := splice_valid (hcd.withBoxes held) hlive hvalid hjoins hsplice
  have hkeeps' : KeepsPorts s₁ s' := keepsPorts_of_frame hf' hd₁ hd' hr.inputs hr.outputs
  refine ⟨d₂.without n, hd', validate_eq_ok.mpr fun w hw => ?_⟩
  rw [wires_without hcd₂, List.mem_filter, Bool.and_eq_true, Bool.not_eq_true', Bool.not_eq_true'] at hw
  obtain ⟨hw, hsrc, htgt⟩ := hw
  refine (hvalid₂ w hw).transfer hkeeps' rfl rfl fun c hc box hbox => ?_
  obtain ⟨u, hu, hget⟩ := box_eq_ok.mp hbox
  have hoff : c.isOn n = false := by
    rcases hc with rfl | rfl
    · exact hsrc
    · exact htgt
  have hne : n ≠ u := by
    rintro rfl
    simp [Connector.isOn, hu] at hoff
  exact box_eq_ok.mpr ⟨u, hu, (Table.get?_remove _ _ _).trans ((if_neg hne).trans hget)⟩

/-- Substitution keeps a host valid, however the box was wired, also to itself, and whatever wires the
diagram has that takes its place. That is a given diagram with the rows of the box, or the box itself. -/
theorem substitute_valid (hd : s.diagram? host = some d) (he : s.diagram? inner = some e)
    (hcd : d.Consistent) (hce : e.Consistent) (hvd : s.validate d = .ok ()) (hve : s.validate e = .ok ())
    (hv : d.box v = .ok box)
    (hsub : sub = .ref inner ∧ s.SameRows box e ∨ sub = .null ∧ box = .ref inner)
    (hcopy : s.Copyable e) (hrun : (substitute host v sub).perform s = (.ok (), s')) :
    ∃ d', s'.diagram? host = some d' ∧ s'.validate d' = .ok () := by
  obtain ⟨n, hvn, hn⟩ := box_eq_ok.mp hv
  rw [perform_substitute hd he hvn hn (hsub.imp_left And.left)] at hrun
  have hrows : s.SameRows box e := by
    rcases hsub with ⟨-, hrows⟩ | ⟨-, rfl⟩
    · exact hrows
    · exact sameRows_diagram he
  exact inline_valid hd he hcd hce hvd hve hn hrows hcopy hrun

end Action

/-- A new diagram with boxes and with as many of the wires as can be added. -/
def Diagram.wired (inputs outputs boxes : List Value) (ws : List Wire) : Diagram :=
  (((new inputs outputs).withBoxes boxes).extend ws).1

theorem Diagram.consistent_wired (inputs outputs boxes : List Value) (ws : List Wire) :
    (wired inputs outputs boxes ws).Consistent :=
  ((consistent_new inputs outputs).withBoxes boxes).extend ws

namespace Store

def feedback : Store :=
  let a := Value.object "A"
  ⟨[.diagram (wired [a] [a] [.atomic (.hom (.text "f") [a] [a])] [.ofPorts 0 0 2 0, .ofPorts 2 0 2 0,
      ⟨.input (.ofNat 2) (.ofNat 0), .output (.ofNat 2) (.ofNat 0)⟩, .ofPorts 2 0 1 0, .ofPorts 2 0 1 0]),
    .diagram (wired [a] [a] [.ref 2] [.ofPorts 0 0 2 0, .ofPorts 2 0 1 0, .ofPorts 0 0 1 0]),
    .diagram (new [a] [a])], []⟩

/-- A diagram in a diagram in a diagram, each with one input, whose type has an identity. -/
def marked : Store :=
  ⟨[.expression ⟨none, none, none, "x"⟩, .diagram (new [.ref 0] []),
    .diagram (wired [.ref 0] [] [.ref 1] [.ofPorts 0 0 2 0]),
    .diagram (wired [.ref 0] [] [.ref 2] [.ofPorts 0 0 2 0])], []⟩

end Store

namespace Action
open Store

theorem substitute_valid_feedback : ∃ d', ((substitute 0 (.ofNat 2) (.ref 1)).perform feedback).2.diagram? 0 =
      some d' ∧ ((substitute 0 (.ofNat 2) (.ref 1)).perform feedback).2.validate d' = .ok () := by
  have he : feedback.diagram? 1 = some _ := rfl
  have hce := consistent_wired [.object "A"] [.object "A"] [.ref 2]
    [.ofPorts 0 0 2 0, .ofPorts 2 0 1 0, .ofPorts 0 0 1 0]
  refine substitute_valid rfl he (consistent_wired _ _ _ _) hce (by decide +kernel) (by decide +kernel) rfl
    (Or.inl ⟨rfl, ?_⟩) (copyable_of_plain hce ?_) (Prod.ext (by decide +kernel) rfl)
  · intro side
    cases side <;> exact ⟨_, [.object "A"], rfl, rfl, rfl⟩
  · intro r k hr hk side
    obtain rfl : r = 2 := by simpa using (show Value.ref r ∈ [.ref 2] from hr)
    cases hk
    cases side <;> rfl

/-- The copy of the innermost diagram has an input of another type, which is written in the same way. -/
theorem substitute_nested_invalid : ∃ d e, marked.diagram? 3 = some d ∧ marked.diagram? 2 = some e ∧
    d.Consistent ∧ e.Consistent ∧ marked.validate d = .ok () ∧ marked.validate e = .ok () ∧
    d.box (.ofNat 2) = .ok (.ref 2) ∧ ((substitute 3 (.ofNat 2) .null).perform marked).1 = .ok () ∧
    ∃ d', ((substitute 3 (.ofNat 2) .null).perform marked).2.diagram? 3 = some d' ∧
      ((substitute 3 (.ofNat 2) .null).perform marked).2.validate d' =
        .error (.incompatibleWire (Wire.ofPorts 0 0 3 0).toValue (.ref 0) (.ref 4)) :=
  ⟨_, _, rfl, rfl, consistent_wired _ _ _ _, consistent_wired _ _ _ _, by decide +kernel, by decide +kernel,
    rfl, by decide +kernel, _, rfl, by decide +kernel⟩

end Action

end StringDiagram
