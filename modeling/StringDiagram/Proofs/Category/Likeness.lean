import StringDiagram.Proofs.Category.Blueprint

/-! # Likeness of blueprints

Two blueprints are alike if they differ only in the order of their boxes. Both operations respect this,
and interchange and naturality hold up to it: the boxes in the middle, or all boxes, change places. -/
namespace StringDiagram

namespace Value
variable {as bs cs ds : List Value}

theorem same_row_iff : (row as).same (row bs) = true ↔ as.map norm = bs.map norm := by
  simp [same_iff, norm, normAll_eq]

theorem same_row_append (h : (row as).same (row bs) = true) (h' : (row cs).same (row ds) = true) :
    (row (as ++ cs)).same (row (bs ++ ds)) = true := by
  rw [same_row_iff] at h h' ⊢
  rw [List.map_append, List.map_append, h, h']

theorem length_eq_of_same_row (h : (row as).same (row bs) = true) : as.length = bs.length := by
  have hl := congrArg List.length (same_row_iff.mp h)
  rwa [List.length_map, List.length_map] at hl

end Value

def inBlocks (n n' : Nat) (τ τ' : Nat → Nat) (i : Nat) : Nat := if i < n then τ i else τ' (i - n) + n'

section Blocks
variable {n n' m m' i : Nat} {τ τ' : Nat → Nat}

theorem inBlocks_lt (h : i < n) : inBlocks n n' τ τ' i = τ i := if_pos h

theorem inBlocks_add (n n' i : Nat) (τ τ' : Nat → Nat) : inBlocks n n' τ τ' (i + n) = τ' i + n' := by
  rw [inBlocks, if_neg (by omega), Nat.add_sub_cancel]

/-- Places below the first length are moved as in the first row. -/
theorem Plan.Below.move_inBlocks {P : Plan} (h : P.Below n) (n' : Nat) (τ τ' : Nat → Nat) :
    P.move (inBlocks n n' τ τ') = P.move τ :=
  Plan.move_congr h fun _ hi => inBlocks_lt hi

theorem Plan.move_add_inBlocks (P : Plan) (n n' : Nat) (τ τ' : Nat → Nat) :
    (P.move (· + n)).move (inBlocks n n' τ τ') = P.move (τ' · + n') := by
  rw [Plan.move_move]
  exact congrArg P.move (funext fun i => inBlocks_add n n' i τ τ')

theorem bijOn_inBlocks (h : Set.BijOn τ {i | i < n} {i | i < n'}) (h' : Set.BijOn τ' {i | i < m} {i | i < m'}) :
    Set.BijOn (inBlocks n n' τ τ') {i | i < n + m} {i | i < n' + m'} := by
  have hlt : ∀ i < n, τ i < n' := fun i hi => h.mapsTo hi
  have hlt' : ∀ i < m, τ' i < m' := fun i hi => h'.mapsTo hi
  have hcases : ∀ i < n + m, i < n ∨ ∃ j < m, i = j + n := by
    intro i hi
    rcases Nat.lt_or_ge i n with hin | hin
    · exact Or.inl hin
    · exact Or.inr ⟨i - n, by omega, by omega⟩
  refine ⟨fun i hi => ?_, fun i hi j hj hij => ?_, fun k hk => ?_⟩
  · change inBlocks n n' τ τ' i < n' + m'
    rcases hcases i hi with hin | ⟨j, hj, rfl⟩
    · rw [inBlocks_lt hin]
      exact Nat.lt_add_right _ (hlt i hin)
    · rw [inBlocks_add, Nat.add_comm]
      exact Nat.add_lt_add_left (hlt' j hj) _
  · rcases hcases i hi with hin | ⟨a, ha, rfl⟩ <;> rcases hcases j hj with hjn | ⟨b, hb, rfl⟩
    · rw [inBlocks_lt hin, inBlocks_lt hjn] at hij
      exact h.injOn hin hjn hij
    · have hlti := hlt i hin
      rw [inBlocks_lt hin, inBlocks_add] at hij
      omega
    · have hltj := hlt j hjn
      rw [inBlocks_lt hjn, inBlocks_add] at hij
      omega
    · rw [inBlocks_add, inBlocks_add] at hij
      rw [h'.injOn ha hb (Nat.add_right_cancel hij)]
  · rcases Nat.lt_or_ge k n' with hkn | hkn
    · obtain ⟨i, hi, rfl⟩ := h.surjOn hkn
      exact ⟨i, Nat.lt_add_right _ hi, inBlocks_lt hi⟩
    · have hk : k < n' + m' := hk
      obtain ⟨i, hi, hik⟩ := h'.surjOn (show k - n' < m' by omega)
      have hi : i < m := hi
      refine ⟨i + n, show i + n < n + m by omega, ?_⟩
      rw [inBlocks_add, hik]
      omega

theorem bijOn_crossing (m n : Nat) : Set.BijOn (Plan.crossing m n) {i | i < m + n} {i | i < n + m} := by
  have hinv : Set.InvOn (Plan.crossing n m) (Plan.crossing m n) {i | i < m + n} {i | i < n + m} :=
    ⟨fun i hi => Plan.crossing_crossing hi, fun i hi => Plan.crossing_crossing hi⟩
  exact hinv.bijOn (fun i hi => Plan.crossing_lt hi) fun i hi => Plan.crossing_lt hi

end Blocks

namespace Blueprint
variable {R : Value → Value → Prop} {τ τ' : Nat → Nat} {X Y X' Y' : Blueprint}

/-- The boxes of the one, at the places that `τ` gives them, make the other. What they hold is compared
by `R`. -/
structure Like (R : Value → Value → Prop) (τ : Nat → Nat) (X Y : Blueprint) : Prop where
  inputs : (Value.row X.inputs).same (.row Y.inputs) = true
  outputs : (Value.row X.outputs).same (.row Y.outputs) = true
  places : Set.BijOn τ {i | i < X.parts.length} {i | i < Y.parts.length}
  parts : ∀ (i : Nat) (b : Value), X.parts[i]? = some b → ∃ b', Y.parts[τ i]? = some b' ∧ R b b'
  plan : Y.plan = X.plan.move τ

theorem Like.of_eq (hR : ∀ b ∈ X.parts, R b b) (h : X = Y) : Like R id X Y := by
  subst h
  exact ⟨Value.same_refl _, Value.same_refl _, Set.bijOn_id _,
    fun i b hb => ⟨b, hb, hR b (List.mem_of_getElem? hb)⟩, (Plan.move_id _).symm⟩

theorem Like.tight (h : Like R τ X Y) : Y.tight = X.tight.move τ := by
  rw [Blueprint.tight, Blueprint.tight, h.plan, Plan.clip_move, Value.length_eq_of_same_row h.inputs,
    Value.length_eq_of_same_row h.outputs]

theorem Like.trans {S T : Value → Value → Prop} {Z : Blueprint} (h : Like R τ X Y) (h' : Like S τ' Y Z)
    (hT : ∀ a ∈ X.parts, ∀ b c, R a b → S b c → T a c) : Like T (τ' ∘ τ) X Z where
  inputs := Value.same_trans h.inputs h'.inputs
  outputs := Value.same_trans h.outputs h'.outputs
  places := h'.places.comp h.places
  parts := by
    intro i a ha
    obtain ⟨b, hb, hR⟩ := h.parts i a ha
    obtain ⟨c, hc, hS⟩ := h'.parts _ b hb
    exact ⟨c, hc, hT a (List.mem_of_getElem? ha) b c hR hS⟩
  plan := by rw [h'.plan, h.plan, Plan.move_move]

/-- The parts may be compared by something else. -/
theorem Like.imp {S : Value → Value → Prop} (h : Like R τ X Y)
    (hS : ∀ a ∈ X.parts, ∀ b ∈ Y.parts, R a b → S a b) : Like S τ X Y where
  inputs := h.inputs
  outputs := h.outputs
  places := h.places
  parts := fun i a ha => (h.parts i a ha).imp fun b hb =>
    ⟨hb.1, hS a (List.mem_of_getElem? ha) b (List.mem_of_getElem? hb.1) hb.2⟩
  plan := h.plan

/-- The same number of parts in the same order. -/
theorem Like.length_eq (h : Like R id X Y) : X.parts.length = Y.parts.length := by
  have himage : {i | i < X.parts.length} = {i | i < Y.parts.length} := by
    simpa using h.places.image_eq
  have hlt : ∀ i, i < X.parts.length ↔ i < Y.parts.length := fun i => Set.ext_iff.mp himage i
  exact Nat.le_antisymm (Nat.le_of_not_lt fun hl => Nat.lt_irrefl _ ((hlt _).mp hl))
    (Nat.le_of_not_lt fun hl => Nat.lt_irrefl _ ((hlt _).mpr hl))

theorem Like.symm {S : Value → Value → Prop} (h : Like R id X Y) (hS : ∀ a ∈ X.parts, ∀ b, R a b → S b a) :
    Like S id Y X where
  inputs := Value.same_symm h.inputs
  outputs := Value.same_symm h.outputs
  places := by
    rw [h.length_eq]
    exact Set.bijOn_id _
  parts := by
    intro i b hb
    have hi : i < X.parts.length := h.length_eq ▸ (List.getElem?_eq_some_iff.mp hb).1
    have ha := List.getElem?_eq_getElem hi
    obtain ⟨b', hb', hR⟩ := h.parts i _ ha
    obtain rfl : b' = b := Option.some.inj (hb'.symm.trans hb)
    exact ⟨_, ha, hS _ (List.mem_of_getElem? ha) b' hR⟩
  plan := by rw [h.plan, Plan.move_id, Plan.move_id]

theorem inBlocks_id (n : Nat) : inBlocks n n id id = id := by
  funext i
  unfold inBlocks
  simp only [id_eq]
  split <;> omega

/-- The parts of two blueprints put together. -/
theorem parts_inBlocks {as bs as' bs' : List Value}
    (h : ∀ (i : Nat) (b : Value), as[i]? = some b → ∃ b', as'[τ i]? = some b' ∧ R b b')
    (h' : ∀ (i : Nat) (b : Value), bs[i]? = some b → ∃ b', bs'[τ' i]? = some b' ∧ R b b') (i : Nat)
    (b : Value) (hb : (as ++ bs)[i]? = some b) :
    ∃ b', (as' ++ bs')[inBlocks as.length as'.length τ τ' i]? = some b' ∧ R b b' := by
  rcases Nat.lt_or_ge i as.length with hi | hi
  · rw [List.getElem?_append_left hi] at hb
    obtain ⟨b', hb', hR⟩ := h i b hb
    rw [inBlocks_lt hi, List.getElem?_append_left (List.getElem?_eq_some_iff.mp hb').1]
    exact ⟨b', hb', hR⟩
  · rw [List.getElem?_append_right hi] at hb
    obtain ⟨b', hb', hR⟩ := h' _ b hb
    refine ⟨b', ?_, hR⟩
    rw [inBlocks, if_neg (Nat.not_lt.mpr hi), List.getElem?_append_right (Nat.le_add_left _ _),
      Nat.add_sub_cancel, hb']

section Congruence
variable (h : Like R τ X X') (h' : Like R τ' Y Y') (hX : X.Sound) (hY : Y.Sound)

include h h' hX hY

theorem Like.compose :
    Like R (inBlocks X.parts.length X'.parts.length τ τ') (X.compose Y) (X'.compose Y') where
  inputs := h.inputs
  outputs := h'.outputs
  places := by
    simp only [Blueprint.compose, List.length_append]
    exact bijOn_inBlocks h.places h'.places
  parts := parts_inBlocks h.parts h'.parts
  plan := by
    have hfirst : X'.tight = X.tight.move (inBlocks X.parts.length X'.parts.length τ τ') := by
      rw [h.tight, hX.tight.move_inBlocks]
    have hsecond : (Y'.plan.clip X'.outputs.length Y'.outputs.length).move (· + X'.parts.length) =
        ((Y.plan.clip X.outputs.length Y.outputs.length).move (· + X.parts.length)).move
          (inBlocks X.parts.length X'.parts.length τ τ') := by
      rw [h'.plan, Plan.clip_move, Value.length_eq_of_same_row h.outputs,
        Value.length_eq_of_same_row h'.outputs, Plan.move_move, Plan.move_move]
      exact Plan.move_congr (Plan.Below.clip hY _ _) fun i _ => (inBlocks_add _ _ i τ τ').symm
    change Plan.serial _ _ = Plan.move _ (Plan.serial _ _)
    rw [hfirst, hsecond, Plan.serial_move]

theorem Like.otimes :
    Like R (inBlocks X.parts.length X'.parts.length τ τ') (X.otimes Y) (X'.otimes Y') where
  inputs := Value.same_row_append h.inputs h'.inputs
  outputs := Value.same_row_append h.outputs h'.outputs
  places := by
    simp only [Blueprint.otimes, List.length_append]
    exact bijOn_inBlocks h.places h'.places
  parts := parts_inBlocks h.parts h'.parts
  plan := by
    have hfirst : X'.tight = X.tight.move (inBlocks X.parts.length X'.parts.length τ τ') := by
      rw [h.tight, hX.tight.move_inBlocks]
    have hsecond : Y'.tight.move (· + X'.parts.length) =
        (Y.tight.move (· + X.parts.length)).move (inBlocks X.parts.length X'.parts.length τ τ') := by
      rw [h'.tight, Plan.move_move, Plan.move_move]
      exact Plan.move_congr hY.tight fun i _ => (inBlocks_add _ _ i τ τ').symm
    change Plan.beside _ _ _ _ = Plan.move _ (Plan.beside _ _ _ _)
    rw [hfirst, hsecond, Plan.beside_move, Value.length_eq_of_same_row h.inputs,
      Value.length_eq_of_same_row h.outputs]

end Congruence

/-- The parts stay in order. -/
theorem Like.compose_id (h : Like R id X X') (h' : Like R id Y Y') (hX : X.Sound) (hY : Y.Sound) :
    Like R id (X.compose Y) (X'.compose Y') := by
  have hcompose := h.compose h' hX hY
  rwa [← h.length_eq, inBlocks_id] at hcompose

theorem Like.otimes_id (h : Like R id X X') (h' : Like R id Y Y') (hX : X.Sound) (hY : Y.Sound) :
    Like R id (X.otimes Y) (X'.otimes Y') := by
  have hotimes := h.otimes h' hX hY
  rwa [← h.length_eq, inBlocks_id] at hotimes

section Interchange
variable {X₁ Y₁ X₂ Y₂ : Blueprint}

def swapMiddle (a b c i : Nat) : Nat :=
  if i < a then i else if i < a + b then i + c else if i < a + b + c then i - b else i

theorem swapMiddle_lt {a b c i : Nat} (h : i < a) : swapMiddle a b c i = i := if_pos h

theorem swapMiddle_second {a b c i : Nat} (h : i < b) : swapMiddle a b c (i + a) = i + (a + c) := by
  unfold swapMiddle
  split_ifs <;> omega

theorem swapMiddle_third {a b c i : Nat} (h : i < c) : swapMiddle a b c (i + (a + b)) = i + a := by
  unfold swapMiddle
  split_ifs <;> omega

theorem swapMiddle_last (a b c i : Nat) : swapMiddle a b c (i + (a + b + c)) = i + (a + b + c) := by
  unfold swapMiddle
  split_ifs <;> omega

theorem bijOn_swapMiddle (a b c d : Nat) :
    Set.BijOn (swapMiddle a b c) {i | i < a + b + (c + d)} {i | i < a + c + (b + d)} := by
  have hlt : ∀ b c, ∀ i < a + b + (c + d), swapMiddle a b c i < a + c + (b + d) := by
    intro b c i hi
    unfold swapMiddle
    split_ifs <;> omega
  have hback : ∀ b c, ∀ i < a + b + (c + d), swapMiddle a c b (swapMiddle a b c i) = i := by
    intro b c i hi
    unfold swapMiddle
    split_ifs <;> omega
  exact Set.InvOn.bijOn ⟨fun i hi => hback b c i hi, fun i hi => hback c b i hi⟩ (fun i hi => hlt b c i hi)
    fun i hi => hlt c b i hi

theorem parts_swapMiddle {as bs cs ds : List Value} (i : Nat) (b : Value)
    (h : (as ++ bs ++ (cs ++ ds))[i]? = some b) :
    (as ++ cs ++ (bs ++ ds))[swapMiddle as.length bs.length cs.length i]? = some b := by
  rw [← h]
  simp only [swapMiddle, List.getElem?_append, List.length_append]
  split_ifs <;> (try omega) <;> congr 1 <;> omega

/-- First in sequence and then in parallel, or first in parallel and then in sequence. -/
theorem interchange (h₁ : X₁.outputs.length = Y₁.inputs.length)
    (h₂ : X₂.outputs.length = Y₂.inputs.length) (hX₁ : X₁.Sound) (hY₁ : Y₁.Sound) (hX₂ : X₂.Sound)
    (hR : ∀ b ∈ ((X₁.compose Y₁).otimes (X₂.compose Y₂)).parts, R b b) :
    Like R (swapMiddle X₁.parts.length Y₁.parts.length X₂.parts.length)
      ((X₁.compose Y₁).otimes (X₂.compose Y₂)) ((X₁.otimes X₂).compose (Y₁.otimes Y₂)) where
  inputs := Value.same_refl _
  outputs := Value.same_refl _
  places := by
    simp only [Blueprint.compose, Blueprint.otimes, List.length_append]
    exact bijOn_swapMiddle _ _ _ _
  parts := fun i b hb => ⟨b, parts_swapMiddle i b hb, hR b (List.mem_of_getElem? hb)⟩
  plan := by
    have hlen : (X₁.otimes X₂).outputs.length = (Y₁.otimes Y₂).inputs.length := by
      simp [Blueprint.otimes, h₁, h₂]
    have hY₁fits : Y₁.tight.Fits X₁.outputs.length Y₁.outputs.length := h₁ ▸ Y₁.fits_tight
    have hparts : (X₁.otimes X₂).parts.length = X₁.parts.length + X₂.parts.length := List.length_append
    have hparts' : (X₁.compose Y₁).parts.length = X₁.parts.length + Y₁.parts.length := List.length_append
    let σ := swapMiddle X₁.parts.length Y₁.parts.length X₂.parts.length
    have h1 : X₁.tight.move σ = X₁.tight :=
      (Plan.move_congr hX₁.tight fun i hi => swapMiddle_lt hi).trans (Plan.move_id _)
    have h2 : (Y₁.tight.move (· + X₁.parts.length)).move σ =
        Y₁.tight.move (· + (X₁.otimes X₂).parts.length) := by
      rw [Plan.move_move, hparts]
      exact Plan.move_congr hY₁.tight fun i hi => swapMiddle_second hi
    have h3 : (X₂.tight.move (· + (X₁.compose Y₁).parts.length)).move σ =
        X₂.tight.move (· + X₁.parts.length) := by
      rw [Plan.move_move, hparts']
      exact Plan.move_congr hX₂.tight fun i hi => swapMiddle_third hi
    have h4 : ((Y₂.tight.move (· + X₂.parts.length)).move (· + (X₁.compose Y₁).parts.length)).move σ =
        (Y₂.tight.move (· + Y₁.parts.length)).move (· + (X₁.otimes X₂).parts.length) := by
      rw [Plan.move_move, Plan.move_move, Plan.move_move, hparts, hparts']
      congr 1
      funext i
      have hi : i + X₂.parts.length + (X₁.parts.length + Y₁.parts.length) =
          i + (X₁.parts.length + Y₁.parts.length + X₂.parts.length) := by omega
      simp only [Function.comp_apply, hi, σ, swapMiddle_last]
      omega
    calc ((X₁.otimes X₂).compose (Y₁.otimes Y₂)).plan
        = .serial (.beside _ _ X₁.tight (X₂.tight.move (· + X₁.parts.length)))
            (.beside _ _ (Y₁.tight.move (· + (X₁.otimes X₂).parts.length))
              ((Y₂.tight.move (· + Y₁.parts.length)).move (· + (X₁.otimes X₂).parts.length))) := by
          rw [plan_compose hlen, (tight_otimes _ _).eq, (tight_otimes _ _).eq, plan_otimes, plan_otimes,
            ← Plan.beside_move]
      _ = .beside _ _ (.serial X₁.tight (Y₁.tight.move (· + (X₁.otimes X₂).parts.length)))
            (.serial (X₂.tight.move (· + X₁.parts.length))
              ((Y₂.tight.move (· + Y₁.parts.length)).move (· + (X₁.otimes X₂).parts.length))) := by
          rw [← h₁]
          exact Plan.serial_beside X₁.fits_tight (hY₁fits.move _)
      _ = ((X₁.compose Y₁).otimes (X₂.compose Y₂)).plan.move σ := by
          rw [plan_otimes, (tight_compose _ _).eq, (tight_compose _ _).eq, plan_compose h₁, plan_compose h₂,
            ← Plan.serial_move, ← Plan.beside_move, ← Plan.serial_move, ← Plan.serial_move, h1, h2, h3, h4]
          rfl

end Interchange

section Naturality

theorem parts_crossing {as bs : List Value} (i : Nat) (b : Value) (h : (as ++ bs)[i]? = some b) :
    (bs ++ as)[Plan.crossing as.length bs.length i]? = some b := by
  rw [Plan.crossing]
  split
  · next hi =>
    rwa [List.getElem?_append_right (Nat.le_add_left _ _), Nat.add_sub_cancel,
      ← List.getElem?_append_left hi]
  · next hi =>
    rw [List.getElem?_append_right (Nat.le_of_not_lt hi)] at h
    rwa [List.getElem?_append_left (List.getElem?_eq_some_iff.mp h).1]

/-- To pass each other before or behind two diagrams that are beside each other. -/
theorem naturality (hX : X.Sound) (hR : ∀ b ∈ (X.otimes Y).parts, R b b) :
    Like R (Plan.crossing X.parts.length Y.parts.length)
      ((X.otimes Y).compose (braid X.outputs Y.outputs))
      ((braid X.inputs Y.inputs).compose (Y.otimes X)) where
  inputs := Value.same_refl _
  outputs := Value.same_refl _
  places := by
    simp only [Blueprint.compose, Blueprint.otimes, braid, ports, List.append_nil, List.nil_append,
      List.length_append]
    exact bijOn_crossing _ _
  parts := by
    intro i b hb
    have hb : (X.parts ++ Y.parts)[i]? = some b := by
      simpa [Blueprint.compose, Blueprint.otimes, braid, ports] using hb
    exact ⟨b, parts_crossing i b hb, hR b (List.mem_of_getElem? hb)⟩
  plan := by
    let σ := Plan.crossing X.parts.length Y.parts.length
    have hX' : X.tight.move σ = X.tight.move (· + Y.parts.length) :=
      Plan.move_congr hX.tight fun i hi => if_pos hi
    have hY' : (Y.tight.move (· + X.parts.length)).move σ = Y.tight := by
      rw [Plan.move_move]
      refine (congrArg (Y.tight.move ·) (funext fun i => ?_)).trans (Plan.move_id _)
      simp [σ, Plan.crossing]
    have hlen : (X.otimes Y).outputs.length = (braid X.outputs Y.outputs).inputs.length := rfl
    have hlen' : (braid X.inputs Y.inputs).outputs.length = (Y.otimes X).inputs.length := rfl
    have hbraid : (braid X.outputs Y.outputs).tight.move (· + (X.otimes Y).parts.length) =
        .wiring (Plan.crossing X.outputs.length Y.outputs.length) (X.outputs.length + Y.outputs.length) := by
      rw [(tight_braid _ _).eq, braid, ports, Plan.move_wiring, List.length_append]
    have hbraid' : (braid X.inputs Y.inputs).tight = Plan.turn (.wiring
        (Plan.crossing Y.inputs.length X.inputs.length) (Y.inputs.length + X.inputs.length)) := by
      rw [(tight_braid _ _).eq, braid, ports, ← Plan.wiring_crossing, List.length_append]
    have hfits : (X.otimes Y).tight.Fits (X.inputs.length + Y.inputs.length)
        (X.outputs.length + Y.outputs.length) := by
      have h := (X.otimes Y).fits_tight
      simpa only [Blueprint.otimes, List.length_append] using h
    have hfits' : (Y.otimes X).tight.Fits (Y.inputs.length + X.inputs.length)
        (Y.outputs.length + X.outputs.length) := by
      have h := (Y.otimes X).fits_tight
      simpa only [Blueprint.otimes, List.length_append] using h
    have hleft : ((X.otimes Y).compose (braid X.outputs Y.outputs)).plan =
        (X.otimes Y).plan.reroute id (Plan.crossing X.outputs.length Y.outputs.length) := by
      rw [plan_compose hlen, hbraid, Plan.serial_wiring hfits, (tight_otimes X Y).eq]
    have hright : ((braid X.inputs Y.inputs).compose (Y.otimes X)).plan =
        (Y.otimes X).plan.reroute (Plan.crossing Y.inputs.length X.inputs.length) id := by
      have hnone : (Y.otimes X).tight.move (· + (braid X.inputs Y.inputs).parts.length) =
          (Y.otimes X).tight := Plan.move_id _
      rw [plan_compose hlen', hbraid', hnone, Plan.wiring_serial hfits', (tight_otimes Y X).eq]
    rw [hleft, hright, Plan.move_reroute, plan_otimes, plan_otimes, Plan.beside, Plan.beside, Plan.move_add,
      Plan.move_reroute, hX', hY']
    simp only [Plan.reroute_add, Plan.reroute_reroute]
    rw [add_comm]
    congr 1
    · refine Plan.reroute_congr (X.fits_tight.move _) (fun i _ => ?_) fun i hi => ?_
      · simp [Plan.crossing]
      · simp [Plan.crossing, hi]
    · refine Plan.reroute_congr Y.fits_tight (fun i hi => ?_) fun i _ => ?_
      · simp [Plan.crossing, hi]
      · simp [Plan.crossing]

end Naturality

end Blueprint

end StringDiagram
