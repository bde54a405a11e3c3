import StringDiagram.Proofs.Category.Served
import StringDiagram.Proofs.Linear.Composites
import StringDiagram.Proofs.Linear.Solo

/-! # Boxes and their diagrams as operands

A box that is no diagram may stand where the operations of the category expect a diagram. It stays in the
scaffold under the identifier that it has there, while the diagram of the box is replaced by the box under a
new one; yet both ways make the same diagram up to the identifiers of the boxes, `operands_generated`. The
diagram of the box has to have a name, which the box itself may do without, and a length:
`operands_ungenerated`. -/
namespace StringDiagram
open Diagram Store

/-- A box that is no diagram, or an expression, with rows that can be read, counted and written. The operations
take it for the box `b`. -/
structure Store.Atom (s : Store) (v b : Value) (ins outs : List Value) : Prop where
  box : s.boxOrAtomic v = .ok b
  plain : s.asDiagram? b = none
  input : s.Lists .input b ins
  output : s.Lists .output b outs
  named : ∃ name, s.boxName b = .ok name
  writable : s.Writable ins ∧ s.Writable outs
  rooted : s.Rooted v

/-- The operand `v` is taken for the box `b`, and it comes to the blueprint `X` where it is one of two. -/
inductive Store.Stands (s : Store) : Value → Value → Blueprint → Prop
  | diagram {r : Ref} {d : Diagram} (h : s.Morphism r d) : Stands s (.ref r) (.ref r) d.blueprint
  | atom {v b : Value} {ins outs : List Value} (h : s.Atom v b ins outs) : Stands s v b (solo ins outs b).blueprint

section Solo
variable (ins outs : List Value) (b : Value)

theorem solo_blueprint : (solo ins outs b).blueprint.inputs = ins ∧ (solo ins outs b).blueprint.outputs = outs ∧
    (solo ins outs b).blueprint.parts = [b] := by
  have h := woven_solo ins outs b
  refine ⟨h.inputs, h.outputs, ?_⟩
  rw [blueprint, h.boxes]
  rfl

/-- The plan of the diagram of a box, where the box is box `v`. -/
theorem solo_plan (v : Nat) : ((solo ins outs b).plan.move fun _ => v) = Plan.single v ins.length outs.length := by
  have htips : (solo ins outs b).tips = Plan.single 2 ins.length outs.length := by
    rw [Diagram.tips, (woven_solo ins outs b).wires, zero_add, Multiset.map_add, tips_strand, tips_strand]
    simp only [tip_output, tip_input, Plan.single, Plan.wiring, Multiset.map_map]
    simp [Function.comp_def, Tip.outward, inputId, outputId]
  rw [Diagram.plan, Plan.move_move, htips, Plan.move_single]
  rfl

end Solo

namespace Store
variable {s t : Store} {v b : Value} {ins outs : List Value} {X : Blueprint}

theorem Lists.grows {side : Side} {as : List Value} (h : s.Lists side b as) (hg : Grows s t) :
    t.Lists side b as :=
  h.imp fun _ ht => ⟨keepsPorts_of_grows hg _ _ _ ht.1, collect_grows t ht.2.1, ht.2.2⟩

namespace Atom

theorem box_rooted (h : s.Atom v b ins outs) : s.Rooted b := rooted_of_boxOrAtomic h.box h.rooted

theorem grows (h : s.Atom v b ins outs) (hg : Grows s t) : t.Atom v b ins outs where
  box := boxOrAtomic_grows hg h.box fun _ => h.box_rooted.lt_of_ref
  plain := (h.box_rooted.asDiagram? hg).trans h.plain
  input := h.input.grows hg
  output := h.output.grows hg
  named := boxName_grows hg h.named
  writable := h.writable.imp (·.grows hg) (·.grows hg)
  rooted := h.rooted.grows hg

theorem operand (h : s.Atom v b ins outs) : s.Operand v b ins outs := by
  obtain ⟨types, hports, hcollect, -⟩ := h.input
  obtain ⟨types', hports', hcollect', -⟩ := h.output
  have hself := boxOrAtomic_self h.box hports
  refine ⟨h.box, ?_, ?_⟩
  · rw [dom, hself]
    exact bind_eq_ok.mpr ⟨b, rfl, bind_eq_ok.mpr ⟨types, hports, hcollect⟩⟩
  · rw [codom, hself]
    exact bind_eq_ok.mpr ⟨b, rfl, bind_eq_ok.mpr ⟨types', hports', hcollect'⟩⟩

/-- The diagram of the box is a morphism. -/
theorem morphism (h : s.Atom v b ins outs) :
    (s.withNew (solo ins outs b)).Morphism s.objects.length (solo ins outs b) := by
  have hwoven := woven_solo ins outs b
  have hgrow := grows_withNew s (solo ins outs b)
  refine ⟨diagram?_withNew s _, hwoven.consistent, directed_solo ins outs b, ?_, fun c hc => ?_⟩
  · rw [named_iff, hwoven.inputs, hwoven.outputs]
    exact h.writable.imp (·.grows hgrow) (·.grows hgrow)
  · obtain rfl : c = b := by simpa [hwoven.boxes, Table.values] using hc
    exact h.box_rooted.grows hgrow

end Atom

namespace Stands

theorem grows (h : s.Stands v b X) (hg : Grows s t) : t.Stands v b X := by
  cases h with
  | diagram h => exact .diagram (h.grows hg)
  | atom h => exact .atom (h.grows hg)

theorem operand (h : s.Stands v b X) : s.Operand v b X.inputs X.outputs := by
  cases h with
  | diagram h => exact operand_of_diagram h.found
  | @atom _ _ ins outs h =>
    obtain ⟨hi, ho, -⟩ := solo_blueprint ins outs b
    exact hi.symm ▸ ho.symm ▸ h.operand

theorem boxName (h : s.Stands v b X) : ∃ name, s.boxName b = .ok name := by
  cases h with
  | diagram h => exact h.boxName
  | atom h => exact h.named

theorem writable (h : s.Stands v b X) : s.Writable X.inputs ∧ s.Writable X.outputs := by
  cases h with
  | diagram h => exact h.writable
  | @atom _ _ ins outs h =>
    obtain ⟨hi, ho, -⟩ := solo_blueprint ins outs b
    exact hi.symm ▸ ho.symm ▸ h.writable

theorem sound (h : s.Stands v b X) : X.Sound := by
  cases h with
  | diagram h => exact sound_blueprint h.consistent h.directed
  | atom h => exact sound_blueprint h.morphism.consistent h.morphism.directed

theorem rooted (h : s.Stands v b X) : ∀ c ∈ X.parts, s.Rooted c := by
  cases h with
  | diagram h => exact h.rooted
  | @atom _ _ ins outs h =>
    intro c hc
    rw [(solo_blueprint ins outs b).2.2, List.mem_singleton] at hc
    exact hc ▸ h.box_rooted

end Stands

end Store

/-- Box `n` of the diagram `d` gave way to the parts of `X`, of which part `i` is box `ρ i`. It may itself be that
part. What came in is held as it was in store `s`. -/
structure Store.Admits (s : Store) (host : Ref) (n : Nat) (X : Blueprint) (d : Diagram) (t : Store) (ρ : Nat → Nat)
    (d' : Diagram) : Prop where
  consistent : d'.Consistent
  directed : d'.Directed
  outward : d'.Outward
  inputs : d'.inputs = d.inputs
  outputs : d'.outputs = d.outputs
  next_le : d.next ≤ d'.next
  numbered : ∀ u < d.next, d.Numbered u → d'.Numbered u
  tips : d'.tips = Plan.graft n d.tips (X.plan.move ρ)
  places : ∀ i, ρ i = n ∨ d.next ≤ ρ i
  injOn : Set.InjOn ρ {i | i < X.parts.length}
  mem_keys : ∀ u, u ∈ d'.boxes.keys ↔ (u ∈ d.boxes.keys ∧ u ≠ n) ∨ ∃ i < X.parts.length, ρ i = u
  others : ∀ u ∈ d.boxes.keys, u ≠ n → d'.boxes.get? u = d.boxes.get? u
  parts : ∀ (i : Nat) b, X.parts[i]? = some b → s.Apart host b → s.HeldAt b t d' (ρ i)

namespace Action
variable {s s₀ s₁ : Store} {host : Ref} {d₀ d : Diagram} {v b : Value} {X : Blueprint} {n m k : Nat}

/-- A diagram among the boxes is replaced by what it holds, and any other box stays. -/
theorem substitute_operand (h : s.Stands v b X) (hg₀ : Grows s s₀) (hnew : s.objects.length ≤ host)
    (hd₀ : s₀.diagram? host = some d₀) (hf : Frame host s₀ s₁) (hd : s₁.diagram? host = some d)
    (hb : d.boxes.get? n = some b) (hcd : d.Consistent) (hdir : d.Directed) (hout : d.Outward) (hn : d.Numbered n)
    (hserved : d.tips.Served n m k)
    (hfit : s.asDiagram? b = none → m ≤ X.inputs.length ∧ k ≤ X.outputs.length) :
    ∃ t d' ρ, (substitute host (.ofNat n) .null).perform s₁ = (.ok (), t) ∧ Frame host s₁ t ∧
      t.diagram? host = some d' ∧ s₀.Admits host n X d t ρ d' := by
  have hv := Table.mem_keys_of_get? hb
  have hg : Grows s s₁ := .of_frame hf hg₀ hnew
  cases h with
  | @diagram r e h =>
    obtain ⟨t, d', hrun, hin⟩ := substitute_held hd hb (hg.diagram? h.found) hcd h.consistent h.directed
    have hlen : e.blueprint.parts.length = e.boxes.length := List.length_map _
    refine ⟨t, d', (· + d.next), hrun, hin.frame, hin.found, hin.consistent,
      hin.directed hcd h.consistent hdir h.directed, hin.outward hcd h.consistent h.directed hv hserved.loopless hout,
      hin.inputs, hin.outputs, hin.next ▸ Nat.le_add_right _ _,
      fun u hu hnum => hin.numbered hcd h.consistent h.directed hv hserved.loopless hnum hu,
      hin.tips_eq hcd h.consistent h.directed hv hserved.loopless hn, fun i => Or.inr (Nat.le_add_left _ _),
      fun i _ j _ => Nat.add_right_cancel, fun u => ?_, fun u hu hne => hin.get?_old hu hne, fun i c hc ha => ?_⟩
    · rw [hin.mem_keys, hlen]
      refine or_congr_right ⟨fun hu => ⟨u - d.next, ?_, ?_⟩, ?_⟩
      · omega
      · omega
      · rintro ⟨i, hi, rfl⟩
        omega
    · obtain ⟨c', hc', hheld⟩ := hin.get?_new hcd hc
      exact ⟨c', Nat.add_comm d.next i ▸ hc', hheld s₀ d₀ hd₀ hf ha⟩
  | @atom _ _ ins outs h =>
    have hplain : s₁.asDiagram? b = none := (h.box_rooted.asDiagram? hg).trans h.plain
    obtain ⟨hi, ho, hp⟩ := solo_blueprint ins outs b
    obtain ⟨hm, hk⟩ := hfit h.plain
    rw [hi] at hm
    rw [ho] at hk
    have hframe : Frame host s₁ { s₁ with notes := s₁.notes ++ [.atomic n] } := .of_append (List.append_nil _).symm
    refine ⟨_, d, fun _ => n, perform_substitute_atomic hd hb hplain, hframe, hd, hcd, hdir, hout, rfl, rfl,
      Nat.le_refl _, fun _ _ => id, ?_, fun _ => Or.inl rfl, ?_, fun u => ?_, fun _ _ _ => rfl, fun i c hc _ => ?_⟩
    · change _ = Plan.graft n d.tips ((solo ins outs b).plan.move fun _ => n)
      rw [solo_plan, (hserved.mono hm hk).graft_single]
    · intro i hi j hj _
      have hi : i < (solo ins outs b).blueprint.parts.length := hi
      have hj : j < (solo ins outs b).blueprint.parts.length := hj
      rw [hp, List.length_singleton] at hi hj
      omega
    · rw [hp]
      by_cases hu : u = n
      · simp [hu, hv]
      · simp [hu, Ne.symm hu]
    · rw [hp] at hc
      obtain rfl : b = c := List.mem_singleton.mp (List.mem_of_getElem? hc) |>.symm
      exact ⟨b, hb, .of_not_diagram ((h.box_rooted.asDiagram? hg₀).trans h.plain)⟩

end Action

section Placed
variable {X Y : Blueprint} {ρ ρ' : Nat → Nat} (hX : X.Sound) (hρ : ∀ i, ρ i ≠ 3)
include hX hρ

/-- Two plans in the scaffold of composition, wherever their boxes are. -/
theorem graft_compose : Plan.graft 3 (Plan.graft 2
      (Plan.chain 2 3 X.inputs.length X.outputs.length Y.outputs.length) (X.plan.move ρ)) (Y.plan.move ρ') =
    (X.compose Y).plan.move (inBlocks X.parts.length 0 ρ ρ') := by
  change _ = Plan.move _ (Plan.serial _ _)
  rw [Plan.graft_chain (by decide) (Plan.away_move hρ _), Plan.clip_move, Plan.clip_move, ← Plan.serial_move,
    hX.tight.move_inBlocks, Plan.move_add_inBlocks]
  rfl

/-- Two plans in the scaffold of the product. -/
theorem graft_otimes : Plan.graft 3 (Plan.graft 2
      (Plan.pair 2 3 X.inputs.length Y.inputs.length X.outputs.length Y.outputs.length) (X.plan.move ρ))
      (Y.plan.move ρ') = (X.otimes Y).plan.move (inBlocks X.parts.length 0 ρ ρ') := by
  change _ = Plan.move _ (Plan.beside _ _ _ _)
  rw [Plan.graft_pair (by decide) (Plan.away_move hρ _), Plan.clip_move, Plan.clip_move, ← Plan.beside_move,
    hX.tight.move_inBlocks, Plan.move_add_inBlocks]
  rfl

end Placed

namespace Store.Admits
variable {s t t' : Store} {host : Ref} {d d₁ d₂ : Diagram} {X Y : Blueprint} {ρ ρ' : Nat → Nat}
variable (h : s.Admits host 2 X d t ρ d₁) (h' : s.Admits host 3 Y d₁ t' ρ' d₂) (hkeys : d.boxes.keys = [2, 3])
  (hnext : d.next = 4)
include h

theorem first_mem {i : Nat} (hi : i < X.parts.length) : ρ i ∈ d₁.boxes.keys :=
  (h.mem_keys _).mpr (Or.inr ⟨i, hi, rfl⟩)

include hnext

theorem first_ne (i : Nat) : ρ i ≠ 3 := by
  have hplace := h.places i
  omega

include h' hkeys

/-- The boxes that came in are all that is there, and each of them has a place of its own. -/
theorem bijOn_both : Set.BijOn (inBlocks X.parts.length 0 ρ ρ') {i | i < X.parts.length + Y.parts.length}
    {n | n ∈ d₂.boxes.keys} := by
  have hnot : ∀ {i j}, i < X.parts.length → ρ' j ≠ ρ i := by
    intro i j hi heq
    have hbelow := h.consistent.below_next _ (Consistent.box_live (h.first_mem hi))
    have hne := h.first_ne hnext i
    have hplace := h'.places j
    omega
  refine ⟨fun i hi => (h'.mem_keys _).mpr ?_, fun i hi j hj hij => ?_, fun n hn => ?_⟩
  · rcases Nat.lt_or_ge i X.parts.length with hlt | hge
    · rw [inBlocks_lt hlt]
      exact Or.inl ⟨h.first_mem hlt, h.first_ne hnext i⟩
    · have hi : i < X.parts.length + Y.parts.length := hi
      rw [inBlocks, if_neg (by omega)]
      exact Or.inr ⟨i - X.parts.length, by omega, rfl⟩
  · have hi : i < X.parts.length + Y.parts.length := hi
    have hj : j < X.parts.length + Y.parts.length := hj
    unfold inBlocks at hij
    split at hij <;> split at hij
    · next hlt hlt' => exact h.injOn hlt hlt' hij
    · next hlt _ => exact absurd hij.symm (hnot hlt)
    · next _ hlt => exact absurd hij (hnot hlt)
    · next hge hge' =>
      have heq := h'.injOn (show i - X.parts.length < Y.parts.length by omega)
        (show j - X.parts.length < Y.parts.length by omega) hij
      omega
  · rcases (h'.mem_keys n).mp hn with ⟨hn, hne⟩ | ⟨j, hj, rfl⟩
    · rcases (h.mem_keys n).mp hn with ⟨hn, hne'⟩ | ⟨i, hi, rfl⟩
      · rw [hkeys] at hn
        simp [hne, hne'] at hn
      · exact ⟨i, Nat.lt_add_right _ hi, inBlocks_lt hi⟩
    · exact ⟨j + X.parts.length, show j + X.parts.length < _ by omega, inBlocks_add _ _ j ρ ρ'⟩

omit hkeys in
theorem heldAt_both (hf : Frame host t t') (hh : host < s.objects.length) (i : Nat) (b : Value)
    (hb : (X.parts ++ Y.parts)[i]? = some b) (ha : s.Apart host b) :
    s.HeldAt b t' d₂ (inBlocks X.parts.length 0 ρ ρ' i) := by
  rcases Nat.lt_or_ge i X.parts.length with hi | hi
  · rw [List.getElem?_append_left hi] at hb
    obtain ⟨b', hb', hheld⟩ := h.parts i b hb ha
    rw [inBlocks_lt hi]
    exact ⟨b', (h'.others _ (h.first_mem hi) (h.first_ne hnext i)).trans hb', hheld.after hf hh⟩
  · rw [List.getElem?_append_right hi] at hb
    rw [inBlocks, if_neg (by omega)]
    exact h'.parts _ b hb ha

end Store.Admits

namespace Action
variable {s : Store} {v w b c : Value} {X Y Z : Blueprint} {d : Diagram} {P : Plan} {m n : Nat}

/-- Both operands come into the scaffold, one after the other. -/
theorem enter_admits (message : Value → Value → Note) (hv : s.Stands v b X) (hw : s.Stands w c Y)
    (hs : Scaffold b c P d) (hserved : P.Served 2 X.inputs.length X.outputs.length)
    (hserved' : ∀ Q : Plan, Q.Away 3 → (Plan.graft 2 P Q).Served 3 m n)
    (hfit : s.asDiagram? c = none → m ≤ Y.inputs.length ∧ n ≤ Y.outputs.length) :
    ∃ s₀ t₁ t d₁ d₂ ρ ρ', (enter s.objects.length b c message).perform (s.withNew d) = (.ok s.objects.length, t) ∧
      Grows s s₀ ∧ s₀.diagram? s.objects.length = some d ∧ Grows s t ∧ t.diagram? s.objects.length = some d₂ ∧
      Frame s.objects.length t₁ t ∧ s₀.Admits s.objects.length 2 X d t₁ ρ d₁ ∧
      s₀.Admits s.objects.length 3 Y d₁ t ρ' d₂ := by
  obtain ⟨name, hname⟩ := (hv.grows (grows_withNew s d)).boxName
  obtain ⟨name', hname'⟩ := (hw.grows (grows_withNew s d)).boxName
  let s₀ : Store := { s.withNew d with notes := (s.withNew d).notes ++ [message name name'] }
  have hgrow₀ : Grows s s₀ := grows_withNew s d
  have hd₀ : s₀.diagram? s.objects.length = some d := diagram?_withNew s d
  have hnew := Nat.le_refl s.objects.length
  have hbox : d.boxes.get? 2 = some b := by rw [hs.boxes]; rfl
  obtain ⟨t₁, d₁, ρ, hrun₁, hf₁, hd₁, h₁⟩ := substitute_operand hv hgrow₀ hnew hd₀ (.refl _ _) hd₀ hbox
    hs.consistent hs.directed hs.outward (hs.numbered 2) (hs.tips.symm ▸ hserved)
    fun _ => ⟨Nat.le_refl _, Nat.le_refl _⟩
  have hbox' : d₁.boxes.get? 3 = some c := by
    rw [h₁.others 3 hs.mem_keys.2 (by decide), hs.boxes]
    rfl
  have hserved₁ : d₁.tips.Served 3 m n := by
    rw [h₁.tips, hs.tips]
    exact hserved' _ (Plan.away_move (h₁.first_ne hs.next) _)
  have hnum : d₁.Numbered 3 := h₁.numbered 3 (by rw [hs.next]; decide) (hs.numbered 3)
  obtain ⟨t, d₂, ρ', hrun₂, hf₂, hd₂, h₂⟩ := substitute_operand hw hgrow₀ hnew hd₀ hf₁ hd₁ hbox'
    h₁.consistent h₁.directed h₁.outward hnum hserved₁ hfit
  exact ⟨s₀, t₁, t, d₁, d₂, ρ, ρ', perform_enter hname hname' (perform_bind_eq_ok.mpr ⟨(), t₁, hrun₁, hrun₂⟩),
    hgrow₀, hd₀, .of_frame (hf₁.trans hf₂) hgrow₀ hnew, hd₂, hf₂, h₁, h₂⟩

/-- The boxes of what comes out are those of the blueprint `Z`, each at a place of its own. -/
theorem enter_stands (message : Value → Value → Note) (hv : s.Stands v b X) (hw : s.Stands w c Y)
    (hs : Scaffold b c P d) (hserved : P.Served 2 X.inputs.length X.outputs.length)
    (hserved' : ∀ Q : Plan, Q.Away 3 → (Plan.graft 2 P Q).Served 3 m n)
    (hfit : s.asDiagram? c = none → m ≤ Y.inputs.length ∧ n ≤ Y.outputs.length) (hi : d.inputs = Z.inputs)
    (ho : d.outputs = Z.outputs) (hwrite : s.Writable Z.inputs ∧ s.Writable Z.outputs)
    (hparts : Z.parts = X.parts ++ Y.parts) (hplan : ∀ ρ ρ' : Nat → Nat, (∀ i, ρ i ≠ 3) →
      Plan.graft 3 (Plan.graft 2 P (X.plan.move ρ)) (Y.plan.move ρ') = Z.plan.move (inBlocks X.parts.length 0 ρ ρ')) :
    ∃ t d' τ, (enter s.objects.length b c message).perform (s.withNew d) = (.ok s.objects.length, t) ∧
      Grows s t ∧ d'.Outward ∧ t.Morphism s.objects.length d' ∧
      Blueprint.Like (s.Matched · t ·) τ Z d'.blueprint := by
  obtain ⟨s₀, t₁, t, d₁, d₂, ρ, ρ', hrun, hgrow₀, hd₀, hgrow, hd₂, hf, h₁, h₂⟩ :=
    enter_admits message hv hw hs hserved hserved' hfit
  let σ := inBlocks X.parts.length 0 ρ ρ'
  have hkeys : d.boxes.keys = [2, 3] := by rw [hs.boxes]; rfl
  have hσ : Set.BijOn σ {i | i < Z.parts.length} {n | n ∈ d₂.boxes.keys} := by
    rw [hparts, List.length_append]
    exact h₁.bijOn_both h₂ hkeys hs.next
  have hheld : ∀ (i : Nat) x, Z.parts[i]? = some x →
      ∃ x', d₂.boxes.get? (σ i) = some x' ∧ s.Matched x t x' ∧ t.Rooted x' := by
    intro i x hx
    rw [hparts] at hx
    have hroot : s.Rooted x := (List.mem_append.mp (List.mem_of_getElem? hx)).elim (hv.rooted x) (hw.rooted x)
    have hapart : s₀.Apart s.objects.length x := fun _ _ _ _ hreach =>
      absurd (hroot _ ((hroot.reaches_iff hgrow₀).mp hreach)) (Nat.lt_irrefl _)
    obtain ⟨x', hx', hheld⟩ := h₁.heldAt_both h₂ hs.next hf (lt_of_diagram? hd₀) i x hx hapart
    exact ⟨x', hx', hheld.matched hroot hgrow₀ hgrow⟩
  have hrows : d₂.inputs = Z.inputs ∧ d₂.outputs = Z.outputs :=
    ⟨(h₂.inputs.trans h₁.inputs).trans hi, (h₂.outputs.trans h₁.outputs).trans ho⟩
  have hnodup := h₂.consistent.boxes_nodup
  refine ⟨t, d₂, d₂.boxes.keys.idxOf ∘ σ, hrun, hgrow, h₂.outward,
    ⟨hd₂, h₂.consistent, h₂.directed, ?_, fun x' hx' => ?_⟩, ⟨?_, ?_, ?_, fun i x hx => ?_, ?_⟩⟩
  · rw [named_iff, hrows.1, hrows.2]
    exact hwrite.imp (·.grows hgrow) (·.grows hgrow)
  · -- Every box is there for some part, since the places of the parts are all there are.
    obtain ⟨j, hj⟩ := List.getElem?_of_mem hx'
    have hget := Table.get?_of_getElem? hnodup hj
    obtain ⟨i, hi, hkey⟩ := hσ.surjOn (Table.mem_keys_of_get? hget)
    obtain ⟨x'', hx'', -, hroot⟩ := hheld i _ (List.getElem?_eq_getElem hi)
    rw [hkey, hget, Option.some.injEq] at hx''
    exact hx'' ▸ hroot
  · exact hrows.1 ▸ Value.same_refl _
  · exact hrows.2 ▸ Value.same_refl _
  · have hplaces := (bijOn_idxOf hnodup).comp hσ
    simpa [blueprint, Table.values] using hplaces
  · obtain ⟨x', hx', hm, -⟩ := hheld i x hx
    exact ⟨x', Table.getElem?_of_get? hnodup hx', hm⟩
  · change d₂.tips.move _ = _
    rw [h₂.tips, h₁.tips, hs.tips, hplan ρ ρ' (h₁.first_ne hs.next), Plan.move_move]

theorem compose_stands (hv : s.Stands v b X) (hw : s.Stands w c Y)
    (hfit : s.asDiagram? c = none → X.outputs.length ≤ Y.inputs.length) :
    ∃ t d τ, (compose v w).perform s = (.ok s.objects.length, t) ∧ Grows s t ∧ d.Outward ∧
      t.Morphism s.objects.length d ∧ Blueprint.Like (s.Matched · t ·) τ (X.compose Y) d.blueprint := by
  obtain ⟨hs, hi, ho⟩ := scaffold_inSequence X.inputs Y.outputs b c X.outputs.length
  rw [perform_compose hv.operand hw.operand]
  exact enter_stands .composing hv hw hs (Plan.served_chain (by decide) _ _ _)
    (fun Q hQ => Plan.served_graft_chain (by decide) hQ _ _ _) (fun hc => ⟨hfit hc, Nat.le_refl _⟩) hi ho
    ⟨hv.writable.1, hw.writable.2⟩ rfl fun ρ ρ' hρ => graft_compose hv.sound hρ

theorem otimesBoxes_stands (hv : s.Stands v b X) (hw : s.Stands w c Y) :
    ∃ t d τ, (otimesBoxes v w).perform s = (.ok s.objects.length, t) ∧ Grows s t ∧ d.Outward ∧
      t.Morphism s.objects.length d ∧ Blueprint.Like (s.Matched · t ·) τ (X.otimes Y) d.blueprint := by
  obtain ⟨hs, hi, ho⟩ := scaffold_sideBySide X.inputs Y.inputs X.outputs Y.outputs b c
  rw [perform_otimesBoxes hv.operand hw.operand]
  exact enter_stands .tensoring hv hw hs (Plan.served_pair (by decide) _ _ _ _)
    (fun Q hQ => Plan.served_graft_pair (by decide) hQ _ _ _ _) (fun _ => ⟨Nat.le_refl _, Nat.le_refl _⟩) hi ho
    ⟨hv.writable.1.append hw.writable.1, hv.writable.2.append hw.writable.2⟩ rfl
    fun ρ ρ' hρ => graft_otimes hv.sound hρ

end Action

/-- If the parts of `X` have changed places, they can change back. -/
theorem Blueprint.Like.inverse {R S : Value → Value → Prop} {τ : Nat → Nat} {X Y : Blueprint} (h : Like R τ X Y)
    (hX : X.Sound) (hS : ∀ a ∈ X.parts, ∀ b, R a b → S b a) : ∃ υ, Like S υ Y X := by
  let υ := Function.invFunOn τ {i | i < X.parts.length}
  have hinv : Set.InvOn υ τ {i | i < X.parts.length} {i | i < Y.parts.length} := h.places.invOn_invFunOn
  have hback : Set.BijOn υ {i | i < Y.parts.length} {i | i < X.parts.length} := h.places.symm hinv.symm
  refine ⟨υ, Value.same_symm h.inputs, Value.same_symm h.outputs, hback, fun i b hb => ?_, ?_⟩
  · have hi : i < Y.parts.length := (List.getElem?_eq_some_iff.mp hb).1
    have ha := List.getElem?_eq_getElem (hback.mapsTo hi)
    obtain ⟨b', hb', hR⟩ := h.parts (υ i) _ ha
    rw [hinv.2 hi, hb, Option.some.injEq] at hb'
    exact ⟨_, ha, hS _ (List.mem_of_getElem? ha) b (hb' ▸ hR)⟩
  · rw [h.plan, Plan.move_move]
    exact ((Plan.move_congr hX fun i hi => hinv.1 hi).trans (Plan.move_id _)).symm

namespace Store
variable {s t : Store} {a a' b : Composite} {X Y Z : Blueprint} {n : Nat}

structure Offers (s : Store) (n : Nat) (a : Composite) (X : Blueprint) : Prop where
  rooted : ∀ c ∈ X.parts, s.Rooted c
  makes : ∀ t, Grows s t → ∃ u v b, a.build.perform t = (.ok v, u) ∧ Grows t u ∧ u.Stands v b X ∧
    (u.asDiagram? b = none → n ≤ X.inputs.length)

def Yields (s : Store) (a : Composite) (Z : Blueprint) : Prop :=
  ∀ t, Grows s t → ∃ u r d τ, a.build.perform t = (.ok (.ref r), u) ∧ Grows t u ∧ d.Outward ∧ u.Morphism r d ∧
    Blueprint.Like (s.Matched · u ·) τ Z d.blueprint

theorem Morphism.ne_none {r : Ref} {d : Diagram} (h : s.Morphism r d) : s.asDiagram? (.ref r) ≠ none := by
  rw [asDiagram?_eq_some.mpr ⟨rfl, h.found⟩]
  exact Option.some_ne_none _

theorem offers_diagram {r : Ref} {d : Diagram} (h : s.Morphism r d) (n : Nat) :
    s.Offers n (.bare (.ref r)) d.blueprint := by
  refine ⟨h.rooted, fun t hg => ⟨t, .ref r, .ref r, rfl, .refl t, .diagram (h.grows hg), fun hnone => ?_⟩⟩
  exact absurd hnone (h.grows hg).ne_none

section Atoms
variable {v c : Value} {ins outs : List Value} (h : s.Atom v c ins outs)
include h

theorem offers_atom (hn : n ≤ ins.length) : s.Offers n (.bare v) (solo ins outs c).blueprint := by
  have hstands : s.Stands v c _ := .atom h
  refine ⟨hstands.rooted, fun t hg => ⟨t, v, c, rfl, .refl t, hstands.grows hg, fun _ => ?_⟩⟩
  exact (solo_blueprint ins outs c).1.symm ▸ hn

theorem offers_generator (n : Nat) : s.Offers n (.generator v) (solo ins outs c).blueprint := by
  have hstands : s.Stands v c _ := .atom h
  refine ⟨hstands.rooted, fun t hg => ?_⟩
  have hmorphism := (h.grows hg).morphism
  have hgen := Action.perform_generator (h.grows hg).box (h.grows hg).input (h.grows hg).output
  exact ⟨_, _, _, Action.perform_bind_eq_ok.mpr ⟨_, _, hgen, rfl⟩, grows_withNew t _, .diagram hmorphism,
    fun hnone => absurd hnone hmorphism.ne_none⟩

end Atoms

/-- Both operands are made, and the first is still there when the second is made. -/
theorem Offers.both {m : Nat} (ha : s.Offers m a X) (hb : s.Offers n b Y) (hg : Grows s t) :
    ∃ u₁ u v w x y, a.build.perform t = (.ok v, u₁) ∧ b.build.perform u₁ = (.ok w, u) ∧ Grows t u ∧
      u.Stands v x X ∧ u.Stands w y Y ∧ (u.asDiagram? y = none → n ≤ Y.inputs.length) := by
  obtain ⟨u₁, v, x, hrun, hg₁, hx, -⟩ := ha.makes t hg
  obtain ⟨u, w, y, hrun', hg₂, hy, hn⟩ := hb.makes u₁ (hg.trans hg₁)
  exact ⟨u₁, u, v, w, x, y, hrun, hrun', hg₁.trans hg₂, hx.grows hg₂, hy, hn⟩

theorem Stands.otimes_eq {v b : Value} (h : s.Stands v b X) (w : Value) :
    Action.otimes v w = (do return .ref (← Action.otimesBoxes v w)) := by
  cases v with
  | row as =>
    obtain rfl : Value.atomic (.row as) = b := Except.ok.inj h.operand.box
    cases h.operand.dom
  | _ => rfl

theorem Offers.compose {m : Nat} (ha : s.Offers m a X) (hb : s.Offers X.outputs.length b Y) :
    s.Yields (.compose a b) (X.compose Y) := by
  intro t hg
  obtain ⟨u₁, u, v, w, x, y, hrun, hrun', hgu, hx, hy, hfit⟩ := ha.both hb hg
  obtain ⟨u', d, τ, hcomp, hgu', ho, hd, hlike⟩ := Action.compose_stands hx hy hfit
  refine ⟨u', _, d, τ, ?_, hgu.trans hgu', ho, hd, hlike.imp fun c hc _ _ hm => ?_⟩
  · exact Action.perform_bind_eq_ok.mpr ⟨v, u₁, hrun, Action.perform_bind_eq_ok.mpr ⟨w, u, hrun',
      Action.perform_bind_eq_ok.mpr ⟨_, u', hcomp, rfl⟩⟩⟩
  · exact (Matched.of_grows (hg.trans hgu) ((List.mem_append.mp hc).elim (ha.rooted c) (hb.rooted c))).trans hm

theorem Offers.otimes {m : Nat} (ha : s.Offers m a X) (hb : s.Offers n b Y) :
    s.Yields (.otimes a b) (X.otimes Y) := by
  intro t hg
  obtain ⟨u₁, u, v, w, x, y, hrun, hrun', hgu, hx, hy, -⟩ := ha.both hb hg
  obtain ⟨u', d, τ, hprod, hgu', ho, hd, hlike⟩ := Action.otimesBoxes_stands hx hy
  refine ⟨u', _, d, τ, ?_, hgu.trans hgu', ho, hd, hlike.imp fun c hc _ _ hm => ?_⟩
  · refine Action.perform_bind_eq_ok.mpr ⟨v, u₁, hrun, Action.perform_bind_eq_ok.mpr ⟨w, u, hrun', ?_⟩⟩
    rw [hx.otimes_eq]
    exact Action.perform_bind_eq_ok.mpr ⟨_, u', hprod, rfl⟩
  · exact (Matched.of_grows (hg.trans hgu) ((List.mem_append.mp hc).elim (ha.rooted c) (hb.rooted c))).trans hm

/-- Both terms can be built, one after the other, and what they make is the same up to the identifiers of the
boxes. All that was there stays as it was. -/
def Concord (s : Store) (a b : Composite) : Prop := ∃ t p q d e σ,
  (do
    let f ← a.build
    let g ← b.build
    return (f, g)).perform s = (.ok (Value.ref p, Value.ref q), t) ∧ Grows s t ∧
  t.diagram? p = some d ∧ t.diagram? q = some e ∧ t.Corresponds σ d e

/-- Terms with one blueprint make the same. -/
theorem Yields.concord (ha : s.Yields a Z) (hb : s.Yields b Z) (hZ : Z.Sound) (hroot : ∀ c ∈ Z.parts, s.Rooted c) :
    s.Concord a b := by
  obtain ⟨u, p, d, τ, hrun, hgu, hdo, hd, hlike⟩ := ha s (.refl s)
  obtain ⟨t, q, e, τ', hrun', hgt, heo, he, hlike'⟩ := hb u hgu
  have hlast : Blueprint.Like (s.Matched · t ·) τ Z d.blueprint :=
    hlike.imp fun _ _ x hx hm => hm.trans (.of_grows hgt (hd.rooted x hx))
  obtain ⟨υ, hback⟩ := hlast.inverse (S := (t.Matched · s ·)) hZ fun c hc _ hm => hm.symm (hroot c hc)
  have hsame : Blueprint.Like (t.Matched · t ·) (τ' ∘ υ) d.blueprint e.blueprint :=
    hback.trans hlike' fun _ _ _ _ => .trans
  refine ⟨t, p, q, d, e, _, ?_, hgu.trans hgt, hgt.diagram? hd.found, he.found,
    corresponds_of_like hd.consistent he.consistent hd.directed he.directed hdo heo hsame⟩
  exact Action.perform_bind_eq_ok.mpr ⟨_, u, hrun, Action.perform_bind_eq_ok.mpr ⟨_, t, hrun', rfl⟩⟩

theorem Offers.sound (h : s.Offers n a X) : X.Sound := by
  obtain ⟨u, v, x, -, -, hx, -⟩ := h.makes s (.refl s)
  exact hx.sound

section Swapped
variable {b' : Composite} {k k' m m' : Nat}

/-- Operands with one blueprint may stand for each other on both sides of a composition. -/
theorem Offers.concord_compose (ha : s.Offers m a X) (ha' : s.Offers m' a' X) (hb : s.Offers X.outputs.length b Y)
    (hb' : s.Offers X.outputs.length b' Y) : s.Concord (.compose a b) (.compose a' b') :=
  (ha.compose hb).concord (ha'.compose hb') (ha.sound.compose hb.sound) fun c hc =>
    (List.mem_append.mp hc).elim (ha.rooted c) (hb.rooted c)

theorem Offers.concord_otimes (ha : s.Offers m a X) (ha' : s.Offers m' a' X) (hb : s.Offers k b Y)
    (hb' : s.Offers k' b' Y) : s.Concord (.otimes a b) (.otimes a' b') :=
  (ha.otimes hb).concord (ha'.otimes hb') (ha.sound.otimes hb.sound) fun c hc =>
    (List.mem_append.mp hc).elim (ha.rooted c) (hb.rooted c)

end Swapped

end Store

section Generated
variable {s : Store} {p q : Ref} {f g : Diagram} {F G b c : Value} {ins ins' outs outs' : List Value}

/-- A box that is no diagram may be an operand for its diagram, in both operations and on both sides. In a
composition with it on the right it must not have fewer inputs than there are outputs on the left. -/
theorem operands_generated (hF : s.Atom F b ins outs) (hG : s.Atom G c ins' outs') (hf : s.Morphism p f)
    (hg : s.Morphism q g) :
    s.Concord (.compose (.bare F) (.bare (.ref q))) (.compose (.generator F) (.bare (.ref q))) ∧
    (f.outputs.length ≤ ins'.length →
      s.Concord (.compose (.bare (.ref p)) (.bare G)) (.compose (.bare (.ref p)) (.generator G))) ∧
    (outs.length ≤ ins'.length → ∀ x ∈ [Composite.bare F, .generator F], ∀ y ∈ [Composite.bare G, .generator G],
      s.Concord (.compose (.bare F) (.bare G)) (.compose x y)) ∧
    s.Concord (.otimes (.bare F) (.bare (.ref q))) (.otimes (.generator F) (.bare (.ref q))) ∧
    s.Concord (.otimes (.bare (.ref p)) (.bare G)) (.otimes (.bare (.ref p)) (.generator G)) ∧
    ∀ x ∈ [Composite.bare F, .generator F], ∀ y ∈ [Composite.bare G, .generator G],
      s.Concord (.otimes (.bare F) (.bare G)) (.otimes x y) := by
  have hatom : ∀ {n : Nat} {v a : Value} {as bs : List Value}, s.Atom v a as bs → n ≤ as.length →
      ∀ x ∈ [Composite.bare v, .generator v], s.Offers n x (solo as bs a).blueprint := by
    intro n v a as bs h hn x hx
    rcases List.mem_pair.mp hx with rfl | rfl
    · exact offers_atom h hn
    · exact offers_generator h n
  have hbare := hatom hF (Nat.zero_le _) (.bare F) (by simp)
  have hgen := offers_generator hF 0
  have hleft := offers_diagram hf 0
  have hright := offers_diagram hg
  have houts : (solo ins outs b).blueprint.outputs.length = outs.length :=
    congrArg List.length (solo_blueprint ins outs b).2.1
  refine ⟨hbare.concord_compose hgen (hright _) (hright _), fun hle => ?_, fun hle x hx y hy => ?_,
    hbare.concord_otimes hgen (hright 0) (hright 0), ?_, fun x hx y hy => ?_⟩
  · exact hleft.concord_compose hleft (offers_atom hG hle) (offers_generator hG _)
  · rw [← houts] at hle
    exact hbare.concord_compose (hatom hF (Nat.zero_le _) x hx) (offers_atom hG hle) (hatom hG hle y hy)
  · exact hleft.concord_otimes hleft (offers_atom hG (Nat.zero_le _)) (offers_generator hG 0)
  · exact hbare.concord_otimes (hatom hF (Nat.zero_le _) x hx) (offers_atom hG (Nat.zero_le _))
      (hatom hG (Nat.zero_le _) y hy)

end Generated

/-- An expression with two inputs, a box with two inputs, and diagrams with a fork and with a merge. The box takes
both outputs of the fork, and one of its inputs is left over behind the expression. -/
theorem operands_generated_forking :
    let a := Value.object "A"
    let s : Store := ⟨forking.objects ++ [.expression ⟨some [a, a], some [a], none, "e"⟩,
      .block ⟨.list [a, a], .tuple [a], "b"⟩], []⟩
    let F := Composite.bare (.ref 3)
    let G := Composite.bare (.ref 4)
    s.Concord (.compose F (.bare (.ref 1))) (.compose (.generator (.ref 3)) (.bare (.ref 1))) ∧
    s.Concord (.compose (.bare (.ref 0)) G) (.compose (.bare (.ref 0)) (.generator (.ref 4))) ∧
    s.Concord (.compose F G) (.compose (.generator (.ref 3)) (.generator (.ref 4))) ∧
    s.Concord (.otimes F (.bare (.ref 1))) (.otimes (.generator (.ref 3)) (.bare (.ref 1))) ∧
    s.Concord (.otimes (.bare (.ref 0)) G) (.otimes (.bare (.ref 0)) (.generator (.ref 4))) ∧
    s.Concord (.otimes F G) (.otimes (.generator (.ref 3)) G) := by
  intro a s F G
  have hs : s.Closed := closed_of_forall (by decide)
  have hgrow : Grows forking s := ⟨_, rfl⟩
  have hroot : ∀ r < s.objects.length, s.Rooted (.ref r) := by
    refine fun r hr q hq => hs.lt_of_reaches (fun x hx => ?_) hq
    exact List.mem_singleton.mp hx ▸ hr
  have hF : s.Atom (.ref 3) (.atomic (.ref 3)) [a, a] [a] :=
    ⟨rfl, rfl, ⟨_, rfl, rfl, rfl⟩, ⟨_, rfl, rfl, rfl⟩, ⟨_, rfl⟩, ⟨⟨_, rfl⟩, _, rfl⟩, hroot 3 (by decide)⟩
  have hG : s.Atom (.ref 4) (.ref 4) [a, a] [a] :=
    ⟨rfl, rfl, ⟨_, rfl, rfl, rfl⟩, ⟨_, rfl, rfl, rfl⟩, ⟨_, rfl⟩, ⟨⟨_, rfl⟩, _, rfl⟩, hroot 4 (by decide)⟩
  obtain ⟨hFg, hfG, hFG, htFg, htfG, htFG⟩ :=
    operands_generated hF hG (morphism_forked.grows hgrow) (morphism_merged.grows hgrow)
  have hgen : ∀ v : Value, Composite.generator v ∈ [Composite.bare v, .generator v] := fun _ =>
    List.mem_cons_of_mem _ List.mem_cons_self
  exact ⟨hFg, hfG (by decide), hFG (by decide) _ (hgen _) _ (hgen _), htFg, htfG, htFG _ (hgen _) _ List.mem_cons_self⟩

/-- A box may have a name of its own and an input whose type cannot be written, or a type in the place of a row of
types, which has no length. It can be composed, and its diagram cannot be composed or made. A box without rows can
neither be composed nor has it a diagram. -/
theorem operands_ungenerated :
    let s : Store := ⟨[.diagram (new [] []), .block ⟨.list [.untold], .list [], "f"⟩,
      .block ⟨.object "A", .list [], "f"⟩], []⟩
    s.Morphism 0 (new [] []) ∧
    (∀ F ∈ [Value.ref 1, .ref 2], ((Action.compose F (.ref 0)).perform s).1 = .ok 3) ∧
    ∀ F ∈ [Value.ref 1, .ref 2, .atomic (.int 3)], s.isBox F = .ok true ∧ s.asDiagram? F = none ∧
      ¬ s.Concord (.compose (.bare F) (.bare (.ref 0))) (.compose (.generator F) (.bare (.ref 0))) := by
  intro s
  have hs : s.Closed := closed_of_forall (by decide)
  have hdir : (new [] []).Directed := by
    unfold Diagram.Directed
    decide
  have hfails : ∀ F ∈ [Value.ref 1, .ref 2, .atomic (.int 3)], (((do
      let f ← (Composite.compose (.bare F) (.bare (.ref 0))).build
      let g ← (Composite.compose (.generator F) (.bare (.ref 0))).build
      return (f, g)) : Action (Value × Value)).perform s).1.toOption = none := by
    decide +kernel
  refine ⟨hs.morphism rfl (consistent_new [] []) hdir ⟨_, rfl⟩, by decide +kernel, fun F hF => ⟨?_, ?_, ?_⟩⟩
  · revert F
    decide +kernel
  · revert F
    decide +kernel
  · rintro ⟨t, p, q, d, e, σ, hrun, -⟩
    have hfail := hfails F hF
    rw [hrun] at hfail
    cases hfail

end StringDiagram
