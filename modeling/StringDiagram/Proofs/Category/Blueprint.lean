import Mathlib.Data.Set.Function
import Mathlib.Data.Set.Card
import StringDiagram.Proofs.Category.Plan

/-! # Blueprints

What a diagram is apart from the identifiers of its boxes: its two rows, what its boxes hold, and its
plan. The operations of the category are operations of blueprints, and their laws are equations, except
that interchange and the naturality of the braid bring the boxes into another order. -/
namespace StringDiagram
open Network

structure Blueprint where
  inputs : List Value
  outputs : List Value
  /-- What the boxes hold, place by place. -/
  parts : List Value
  plan : Plan

namespace Blueprint

/-- What counts of the plan: all but the ends at ports that the boundary does not have. -/
def tight (X : Blueprint) : Plan := X.plan.clip X.inputs.length X.outputs.length

def Tight (X : Blueprint) : Prop := X.plan.Fits X.inputs.length X.outputs.length

def Sound (X : Blueprint) : Prop := X.plan.Below X.parts.length

def ports (as bs : List Value) (φ : Nat → Nat) : Blueprint := ⟨as, bs, [], .wiring φ as.length⟩

def identity (as : List Value) : Blueprint := ports as as id

def braid (as bs : List Value) : Blueprint :=
  ports (as ++ bs) (bs ++ as) (Plan.crossing as.length bs.length)

def compose (X Y : Blueprint) : Blueprint where
  inputs := X.inputs
  outputs := Y.outputs
  parts := X.parts ++ Y.parts
  plan := .serial X.tight
    ((Y.plan.clip X.outputs.length Y.outputs.length).move (· + X.parts.length))

def otimes (X Y : Blueprint) : Blueprint where
  inputs := X.inputs ++ Y.inputs
  outputs := X.outputs ++ Y.outputs
  parts := X.parts ++ Y.parts
  plan := .beside X.inputs.length X.outputs.length X.tight (Y.tight.move (· + X.parts.length))

section Ends
variable {X Y : Blueprint}

theorem fits_tight (X : Blueprint) : X.tight.Fits X.inputs.length X.outputs.length := Plan.fits_clip _ _ _

theorem Tight.eq (h : X.Tight) : X.tight = X.plan := Plan.Fits.clip_eq h

theorem tight_ports {as bs : List Value} {φ : Nat → Nat} (h : ∀ i < as.length, φ i < bs.length) :
    (ports as bs φ).Tight := Plan.fits_wiring h

theorem tight_identity (as : List Value) : (identity as).Tight := tight_ports fun _ => id

theorem tight_braid (as bs : List Value) : (braid as bs).Tight := by
  refine tight_ports fun i hi => ?_
  rw [List.length_append] at hi ⊢
  exact Plan.crossing_lt hi

theorem tight_compose (X Y : Blueprint) : (X.compose Y).Tight :=
  X.fits_tight.serial ((Plan.fits_clip _ _ _).move _)

theorem tight_otimes (X Y : Blueprint) : (X.otimes Y).Tight := by
  have h := X.fits_tight.beside (Y.fits_tight.move (· + X.parts.length))
  rw [Tight]
  simpa [otimes] using h

theorem sound_ports (as bs : List Value) (φ : Nat → Nat) : (ports as bs φ).Sound :=
  Plan.below_wiring _ _ _

theorem Sound.tight (h : X.Sound) : X.tight.Below X.parts.length := Plan.Below.clip h _ _

theorem Sound.compose (hX : X.Sound) (hY : Y.Sound) : (X.compose Y).Sound := by
  refine Plan.Below.serial (hX.tight.mono ?_) ((Plan.Below.clip hY _ _).move fun i hi => ?_)
  · simp [Blueprint.compose]
  · simp only [Blueprint.compose, List.length_append]
    omega

theorem Sound.otimes (hX : X.Sound) (hY : Y.Sound) : (X.otimes Y).Sound := by
  refine Plan.Below.add (hX.tight.mono ?_) ((hY.tight.move fun i hi => ?_).reroute _ _)
  · simp [Blueprint.otimes]
  · simp only [Blueprint.otimes, List.length_append]
    omega

end Ends

/-! ## Equations -/

section Equations
variable {X Y Z : Blueprint}

theorem ext_plan {X Y : Blueprint} (hi : X.inputs = Y.inputs) (ho : X.outputs = Y.outputs)
    (hp : X.parts = Y.parts) (h : X.plan = Y.plan) : X = Y := by
  cases X
  cases Y
  simp_all

theorem plan_compose (h : X.outputs.length = Y.inputs.length) :
    (X.compose Y).plan = .serial X.tight (Y.tight.move (· + X.parts.length)) := by
  rw [compose, h, ← tight]

theorem plan_otimes (X Y : Blueprint) : (X.otimes Y).plan =
    .beside X.inputs.length X.outputs.length X.tight (Y.tight.move (· + X.parts.length)) := rfl

theorem add_comp_add (a b : Nat) : (fun i : Nat => i + a) ∘ (fun i => i + b) = fun i => i + (b + a) :=
  funext fun i => Nat.add_assoc i b a

theorem plan_compose_assoc (h : X.outputs.length = Y.inputs.length) :
    ((X.compose Y).compose Z).plan = (X.compose (Y.compose Z)).plan := by
  have hleft : (X.compose Y).tight = (X.compose Y).plan := (tight_compose X Y).eq
  have hright : (Y.compose Z).plan.clip X.outputs.length Z.outputs.length = (Y.compose Z).plan := by
    rw [h]
    exact (tight_compose Y Z).eq
  have hmiddle : Y.plan.clip X.outputs.length Y.outputs.length = Y.tight := by rw [h, tight]
  calc ((X.compose Y).compose Z).plan
      = .serial (X.compose Y).plan ((Z.plan.clip Y.outputs.length Z.outputs.length).move
          (· + (X.parts ++ Y.parts).length)) := by rw [← hleft]; rfl
    _ = .serial X.tight (.serial (Y.tight.move (· + X.parts.length))
          (((Z.plan.clip Y.outputs.length Z.outputs.length).move (· + Y.parts.length)).move
            (· + X.parts.length))) := by
        rw [compose, hmiddle, Plan.serial_assoc, Plan.move_move, add_comp_add, List.length_append,
          Nat.add_comm Y.parts.length]
    _ = .serial X.tight ((Y.compose Z).plan.move (· + X.parts.length)) := by rw [Plan.serial_move]; rfl
    _ = (X.compose (Y.compose Z)).plan := by rw [← hright]; rfl

theorem compose_assoc (h : X.outputs.length = Y.inputs.length) :
    (X.compose Y).compose Z = X.compose (Y.compose Z) :=
  ext_plan rfl rfl (List.append_assoc ..) (plan_compose_assoc h)

theorem identity_compose (h : X.Tight) : (identity X.inputs).compose X = X := by
  refine ext_plan rfl rfl rfl ?_
  change Plan.serial (identity X.inputs).tight (X.tight.move id) = X.plan
  rw [(tight_identity _).eq, Plan.move_id, h.eq]
  change Plan.serial (Plan.wiring id _) _ = _
  rw [← Plan.turn_wiring_id, Plan.wiring_serial h, Plan.reroute_id]

theorem compose_identity (h : X.Tight) : X.compose (identity X.outputs) = X := by
  refine ext_plan rfl rfl (List.append_nil _) ?_
  change Plan.serial X.tight ((identity X.outputs).tight.move _) = X.plan
  rw [(tight_identity _).eq, h.eq, identity, ports, Plan.move_wiring, Plan.serial_wiring h, Plan.reroute_id]

theorem otimes_assoc (X Y Z : Blueprint) : (X.otimes Y).otimes Z = X.otimes (Y.otimes Z) := by
  refine ext_plan (List.append_assoc ..) (List.append_assoc ..) (List.append_assoc ..) ?_
  calc ((X.otimes Y).otimes Z).plan
      = .beside (X.inputs ++ Y.inputs).length (X.outputs ++ Y.outputs).length (X.otimes Y).plan
          (Z.tight.move (· + (X.parts ++ Y.parts).length)) := by rw [← (tight_otimes X Y).eq]; rfl
    _ = .beside X.inputs.length X.outputs.length X.tight (.beside Y.inputs.length Y.outputs.length
          (Y.tight.move (· + X.parts.length))
          ((Z.tight.move (· + Y.parts.length)).move (· + X.parts.length))) := by
        rw [otimes, List.length_append, List.length_append, Plan.beside_assoc, Plan.move_move,
          add_comp_add, List.length_append, Nat.add_comm Y.parts.length]
    _ = .beside X.inputs.length X.outputs.length X.tight
          ((Y.otimes Z).plan.move (· + X.parts.length)) := by rw [otimes, Plan.beside_move]
    _ = (X.otimes (Y.otimes Z)).plan := by rw [← (tight_otimes Y Z).eq]; rfl

theorem otimes_unit (h : X.Tight) : X.otimes (identity []) = X := by
  refine ext_plan (List.append_nil _) (List.append_nil _) (List.append_nil _) ?_
  change X.tight + _ = X.plan
  rw [(tight_identity []).eq, h.eq]
  exact add_zero _

theorem unit_otimes (h : X.Tight) : (identity []).otimes X = X := by
  refine ext_plan rfl rfl rfl ?_
  change (identity []).tight + ((X.tight.move id).reroute id id) = X.plan
  rw [(tight_identity []).eq, Plan.move_id, Plan.reroute_id, h.eq]
  exact zero_add _

theorem ports_otimes {as bs cs ds : List Value} {φ ψ : Nat → Nat}
    (h : ∀ i < as.length, φ i < bs.length) (h' : ∀ i < cs.length, ψ i < ds.length) :
    (ports as bs φ).otimes (ports cs ds ψ) = ports (as ++ cs) (bs ++ ds)
      fun i => if i < as.length then φ i else ψ (i - as.length) + bs.length := by
  refine ext_plan rfl rfl rfl ?_
  rw [otimes, (tight_ports h).eq, (tight_ports h').eq, ports, ports, Plan.move_wiring,
    Plan.wiring_beside, ports, List.length_append]

theorem ports_compose {as bs bs' cs : List Value} {φ ψ : Nat → Nat} (hb : bs.length = bs'.length)
    (h : ∀ i < as.length, φ i < bs.length) (h' : ∀ i < bs'.length, ψ i < cs.length) :
    (ports as bs φ).compose (ports bs' cs ψ) = ports as cs (ψ ∘ φ) := by
  refine ext_plan rfl rfl rfl ?_
  have hsecond : (Plan.wiring ψ bs'.length).clip bs.length cs.length = .wiring ψ bs.length := by
    rw [hb]
    exact (Plan.fits_wiring h').clip_eq
  rw [compose, (tight_ports h).eq, ports, ports, hsecond, Plan.move_wiring,
    Plan.serial_wiring (Plan.fits_wiring h), Plan.reroute_wiring, ports]

theorem ports_congr {as bs : List Value} {φ ψ : Nat → Nat} (h : ∀ i < as.length, φ i = ψ i) :
    ports as bs φ = ports as bs ψ := ext_plan rfl rfl rfl (Plan.wiring_congr h)

theorem id_lt (as : List Value) : ∀ i < as.length, id i < as.length := fun _ h => h

theorem crossing_lt_append (as bs : List Value) :
    ∀ i < (as ++ bs).length, Plan.crossing as.length bs.length i < (bs ++ as).length := by
  intro i hi
  rw [List.length_append] at hi ⊢
  exact Plan.crossing_lt hi

theorem identity_otimes (as bs : List Value) :
    (identity as).otimes (identity bs) = identity (as ++ bs) := by
  rw [identity, identity, ports_otimes (id_lt as) (id_lt bs)]
  refine ports_congr fun i _ => ?_
  split
  · rfl
  · simp only [id_eq]
    omega

theorem braid_braid (as bs : List Value) :
    (braid as bs).compose (braid bs as) = identity (as ++ bs) := by
  rw [braid, braid, ports_compose rfl (crossing_lt_append as bs) (crossing_lt_append bs as)]
  refine ports_congr fun i hi => ?_
  rw [List.length_append] at hi
  exact Plan.crossing_crossing hi

/-- To pass two rows is to pass one after the other. -/
theorem braid_append (as bs cs : List Value) : braid as (bs ++ cs) =
    ((braid as bs).otimes (identity cs)).compose ((identity bs).otimes (braid as cs)) := by
  have hfirst : (braid as bs).otimes (identity cs) = ports (as ++ bs ++ cs) (bs ++ as ++ cs) _ :=
    ports_otimes (crossing_lt_append as bs) (id_lt cs)
  have hsecond : (identity bs).otimes (braid as cs) = ports (bs ++ (as ++ cs)) (bs ++ (cs ++ as)) _ :=
    ports_otimes (id_lt bs) (crossing_lt_append as cs)
  rw [hfirst, hsecond, ports_compose (by simp), braid, ← List.append_assoc, ← List.append_assoc]
  · refine ports_congr fun i hi => ?_
    simp only [List.length_append, Function.comp_apply, Plan.crossing, id_eq] at hi ⊢
    split_ifs <;> omega
  · intro i hi
    simp only [List.length_append, Plan.crossing, id_eq] at hi ⊢
    split_ifs <;> omega
  · intro i hi
    simp only [List.length_append, Plan.crossing, id_eq] at hi ⊢
    split_ifs <;> omega

/-- Two rows pass if first the one behind does. -/
theorem append_braid (as bs cs : List Value) : braid (as ++ bs) cs =
    ((identity as).otimes (braid bs cs)).compose ((braid as cs).otimes (identity bs)) := by
  have hfirst : (identity as).otimes (braid bs cs) = ports (as ++ (bs ++ cs)) (as ++ (cs ++ bs)) _ :=
    ports_otimes (id_lt as) (crossing_lt_append bs cs)
  have hsecond : (braid as cs).otimes (identity bs) = ports (as ++ cs ++ bs) (cs ++ as ++ bs) _ :=
    ports_otimes (crossing_lt_append as cs) (id_lt bs)
  rw [hfirst, hsecond, ports_compose (by simp), braid, List.append_assoc, List.append_assoc]
  · refine ports_congr fun i hi => ?_
    simp only [List.length_append, Function.comp_apply, Plan.crossing, id_eq] at hi ⊢
    split_ifs <;> omega
  · intro i hi
    simp only [List.length_append, Plan.crossing, id_eq] at hi ⊢
    split_ifs <;> omega
  · intro i hi
    simp only [List.length_append, Plan.crossing, id_eq] at hi ⊢
    split_ifs <;> omega

end Equations

end Blueprint

end StringDiagram
