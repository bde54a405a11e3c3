import StringDiagram.Value.Equality
import StringDiagram.Fault

/-! # Tables

Lists of keys with their values, in the order in which the keys came. A key keeps its place when its
value is replaced, and goes last when it comes back after a removal. `get?_put`, `get?_putNew`,
`get?_adjust` and `get?_remove` say what is found after each change, and `keys_putNew` and its like
which keys there are then. -/
namespace StringDiagram

abbrev Table (κ α : Type) := List (κ × α)

namespace Table
variable {κ α : Type} [DecidableEq κ]

def get? (t : Table κ α) (k : κ) : Option α :=
  match t with
  | [] => none
  | (k', a) :: t => if k' = k then some a else get? t k

def keys (t : Table κ α) : List κ := t.map Prod.fst

def values (t : Table κ α) : List α := t.map Prod.snd

def put (t : Table κ α) (k : κ) (a : α) : Table κ α :=
  match t with
  | [] => [(k, a)]
  | (k', b) :: t => if k' = k then (k', a) :: t else (k', b) :: put t k a

def putNew (t : Table κ α) (k : κ) (a : α) : Table κ α :=
  match get? t k with
  | some _ => t
  | none => t ++ [(k, a)]

def adjust (t : Table κ α) (k : κ) (f : α → α) : Table κ α :=
  t.map fun e => if e.1 = k then (e.1, f e.2) else e

def remove (t : Table κ α) (k : κ) : Table κ α := t.filter fun e => !decide (e.1 = k)

@[simp] theorem get?_nil (k : κ) : get? ([] : Table κ α) k = none := rfl

theorem get?_cons (e : κ × α) (t : Table κ α) (k : κ) :
    get? (e :: t) k = if e.1 = k then some e.2 else get? t k := rfl

theorem get?_append (t u : Table κ α) (k : κ) :
    get? (t ++ u) k = (get? t k).or (get? u k) := by
  induction t with
  | nil => simp
  | cons e t ih =>
    simp only [List.cons_append, get?_cons, ih]
    split <;> simp

theorem get?_put (t : Table κ α) (k k' : κ) (a : α) :
    get? (put t k a) k' = if k = k' then some a else get? t k' := by
  induction t with
  | nil => simp [put, get?_cons]
  | cons e t ih =>
    simp only [put]
    by_cases h : e.1 = k
    · by_cases h' : e.1 = k' <;> simp_all [get?_cons]
    · by_cases h' : e.1 = k'
      · have : ¬ k = k' := fun hk => h (h'.trans hk.symm)
        simp_all [get?_cons]
      · simp_all [get?_cons]

theorem get?_putNew (t : Table κ α) (k k' : κ) (a : α) :
    get? (putNew t k a) k' = if k = k' then some ((get? t k).getD a) else get? t k' := by
  unfold putNew
  cases h : get? t k with
  | some b => by_cases hk : k = k' <;> simp_all
  | none => by_cases hk : k = k' <;> simp_all [get?_append, get?_cons]

theorem get?_adjust (t : Table κ α) (k k' : κ) (f : α → α) :
    get? (adjust t k f) k' = if k = k' then (get? t k').map f else get? t k' := by
  induction t with
  | nil => simp [adjust]
  | cons e t ih =>
    simp only [adjust, List.map_cons] at ih ⊢
    by_cases hk : k = k'
    · subst hk
      by_cases h : e.1 = k <;> simp_all [get?_cons]
    · by_cases h : e.1 = k <;> by_cases h' : e.1 = k' <;> simp_all [get?_cons]

theorem get?_remove (t : Table κ α) (k k' : κ) :
    get? (remove t k) k' = if k = k' then none else get? t k' := by
  induction t with
  | nil => simp [remove]
  | cons e t ih =>
    simp only [remove] at ih ⊢
    by_cases hk : k = k'
    · subst hk
      by_cases h : e.1 = k <;> simp_all [get?_cons]
    · by_cases h : e.1 = k <;> by_cases h' : e.1 = k' <;> simp_all [get?_cons]

theorem get?_isSome {t : Table κ α} {k : κ} : (get? t k).isSome = true ↔ k ∈ t.keys := by
  induction t with
  | nil => simp [keys]
  | cons e t ih =>
    simp only [keys] at ih
    by_cases h : e.1 = k
    · simp [get?_cons, keys, h]
    · have h' : ¬ k = e.1 := fun hk => h hk.symm
      simp [get?_cons, keys, h, h', ih]

theorem get?_eq_none {t : Table κ α} {k : κ} : get? t k = none ↔ k ∉ t.keys := by
  rw [← get?_isSome]
  cases get? t k <;> simp

theorem mem_keys_of_get? {t : Table κ α} {k : κ} {a : α} (h : get? t k = some a) : k ∈ t.keys :=
  get?_isSome.mp (by simp [h])

theorem exists_get? {t : Table κ α} {k : κ} (h : k ∈ t.keys) : ∃ a, get? t k = some a :=
  Option.isSome_iff_exists.mp (get?_isSome.mpr h)

theorem mem_of_get? {t : Table κ α} {k : κ} {a : α} (h : get? t k = some a) : (k, a) ∈ t := by
  induction t with
  | nil => simp at h
  | cons e t ih =>
    rw [get?_cons] at h
    split at h
    · next he =>
      have ha : e = (k, a) := Prod.ext he (Option.some.inj h)
      simp [ha]
    · exact List.mem_cons_of_mem _ (ih h)

theorem get?_of_mem {t : Table κ α} {k : κ} {a : α} (ht : t.keys.Nodup) (h : (k, a) ∈ t) :
    get? t k = some a := by
  induction t with
  | nil => simp at h
  | cons e t ih =>
    rw [keys, List.map_cons, List.nodup_cons] at ht
    rcases List.mem_cons.mp h with he | h
    · simp [get?_cons, ← he]
    · have hk : k ∈ keys t := List.mem_map.mpr ⟨_, h, rfl⟩
      have hne : ¬ e.1 = k := fun hek => ht.1 (hek ▸ hk)
      rw [get?_cons, if_neg hne]
      exact ih ht.2 h

omit [DecidableEq κ] in
@[simp] theorem keys_nil : keys ([] : Table κ α) = [] := rfl

omit [DecidableEq κ] in
@[simp] theorem keys_cons (e : κ × α) (t : Table κ α) : keys (e :: t) = e.1 :: t.keys := rfl

omit [DecidableEq κ] in
@[simp] theorem keys_append (t u : Table κ α) : keys (t ++ u) = t.keys ++ u.keys := by
  simp [keys]

omit [DecidableEq κ] in
@[simp] theorem length_keys (t : Table κ α) : t.keys.length = t.length := List.length_map _

omit [DecidableEq κ] in
theorem lt_of_key {t : Table κ α} {i : Nat} {k : κ} (h : t.keys[i]? = some k) : i < t.length := by
  have hi := (List.getElem?_eq_some_iff.mp h).1
  rwa [length_keys] at hi

omit [DecidableEq κ] in
theorem key_of_getElem? {t : Table κ α} {i : Nat} {k : κ} {a : α} (h : t[i]? = some (k, a)) :
    t.keys[i]? = some k := by
  simp [keys, h]

omit [DecidableEq κ] in
theorem value_of_getElem? {t : Table κ α} {i : Nat} {k : κ} {a : α} (h : t[i]? = some (k, a)) :
    t.values[i]? = some a := by
  simp [values, h]

theorem mem_values_of_get? {t : Table κ α} {k : κ} {a : α} (h : get? t k = some a) : a ∈ t.values :=
  List.mem_map_of_mem (mem_of_get? h)

theorem getElem?_of_key {t : Table κ α} (ht : t.keys.Nodup) {i : Nat} {k : κ} {a : α}
    (hk : t.keys[i]? = some k) (ha : get? t k = some a) : t[i]? = some (k, a) := by
  rw [keys, List.getElem?_map] at hk
  obtain ⟨⟨k', a'⟩, hi, hkey⟩ := Option.map_eq_some_iff.mp hk
  obtain rfl : k' = k := hkey
  have ha' := get?_of_mem ht (List.mem_of_getElem? hi)
  rw [ha', Option.some.injEq] at ha
  rw [hi, ha]

theorem keys_put_of_mem {t : Table κ α} {k : κ} (h : k ∈ t.keys) (a : α) :
    (put t k a).keys = t.keys := by
  induction t with
  | nil => simp at h
  | cons e t ih =>
    by_cases he : e.1 = k
    · simp [put, he]
    · have hk : k ∈ keys t := by
        rcases List.mem_cons.mp h with hek | hk
        · exact absurd hek.symm he
        · exact hk
      simp [put, he, ih hk]

theorem keys_put_of_not_mem {t : Table κ α} {k : κ} (h : k ∉ t.keys) (a : α) :
    (put t k a).keys = t.keys ++ [k] := by
  induction t with
  | nil => simp [put]
  | cons e t ih =>
    rw [keys_cons, List.mem_cons, not_or] at h
    have he : ¬ e.1 = k := fun hek => h.1 hek.symm
    simp [put, he, ih h.2]

theorem keys_putNew (t : Table κ α) (k : κ) (a : α) :
    (putNew t k a).keys = if k ∈ t.keys then t.keys else t.keys ++ [k] := by
  unfold putNew
  cases h : get? t k with
  | some b => simp [mem_keys_of_get? h]
  | none => simp [get?_eq_none.mp h]

@[simp] theorem keys_adjust (t : Table κ α) (k : κ) (f : α → α) :
    (adjust t k f).keys = t.keys := by
  simp only [adjust, keys, List.map_map]
  apply List.map_congr_left
  intro e _
  by_cases h : e.1 = k <;> simp [h]

theorem mem_remove {t : Table κ α} {k : κ} {e : κ × α} : e ∈ t.remove k ↔ e ∈ t ∧ e.1 ≠ k := by
  simp [remove]

theorem remove_eq_self {t : Table κ α} {k : κ} (h : k ∉ t.keys) : t.remove k = t :=
  List.filter_eq_self.mpr fun e he => by
    have hne : e.1 ≠ k := fun hk => h (hk ▸ List.mem_map_of_mem he)
    simp [hne]

theorem remove_append (t u : Table κ α) (k : κ) : remove (t ++ u) k = t.remove k ++ u.remove k :=
  List.filter_append ..

/-- The value under a key, and the others. -/
theorem perm_values_of_get? {t : Table κ α} (ht : t.keys.Nodup) {k : κ} {a : α} (h : get? t k = some a) :
    t.values.Perm (a :: (t.remove k).values) := by
  induction t with
  | nil => cases h
  | cons e t ih =>
    obtain ⟨he, ht⟩ := List.nodup_cons.mp ht
    rw [get?_cons] at h
    split at h
    · next hk =>
      cases h
      subst hk
      have hrest : remove (e :: t) e.1 = t := by
        rw [remove, List.filter_cons, if_neg (by simp)]
        exact remove_eq_self he
      rw [hrest]
      exact .refl _
    · next hk =>
      have hrest : remove (e :: t) k = e :: remove t k := List.filter_cons_of_pos (by simpa using hk)
      rw [hrest]
      exact ((ih ht h).cons e.2).trans (.swap ..)

@[simp] theorem keys_remove (t : Table κ α) (k : κ) :
    (remove t k).keys = t.keys.filter fun k' => !decide (k' = k) := by
  simp only [remove, keys, List.filter_map]
  rfl

def resolve (t : Table Nat α) (v : Value) : Except Fault (Nat × α) :=
  if v.hashable then
    match v.boxId? with
    | some n => match get? t n with
      | some a => .ok (n, a)
      | none => .error (.missingKey v)
    | none => .error (.missingKey v)
  else .error .wrongType

theorem resolve_eq_ok {t : Table Nat α} {v : Value} {n : Nat} {a : α} :
    resolve t v = .ok (n, a) ↔ v.boxId? = some n ∧ get? t n = some a := by
  unfold resolve
  cases hv : v.boxId? with
  | none => split <;> simp
  | some m =>
    rw [if_pos (Value.hashable_of_boxId? hv)]
    dsimp only
    cases hm : get? t m with
    | none =>
      refine ⟨fun h => by simp at h, ?_⟩
      rintro ⟨hn, ha⟩
      cases hn
      simp [hm] at ha
    | some b =>
      constructor
      · intro h
        cases h
        exact ⟨rfl, hm⟩
      · rintro ⟨hn, ha⟩
        cases hn
        rw [hm] at ha
        cases ha
        rfl

end Table
end StringDiagram
