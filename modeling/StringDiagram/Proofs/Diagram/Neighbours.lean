import StringDiagram.Diagram.Splice

/-! # Neighbours

The neighbours of a box are told twice, by the edges and by a table. `beside` reads them off the edges on
either side, in the order of these, and the lemmas about `Holds` let a table change along with them. -/
namespace StringDiagram.Diagram

def beside (p q : Nat × Nat → Nat) (es : List (Nat × Nat)) (v : Nat) : List Nat :=
  (es.filter fun e => decide (p e = v)).map q

section Beside
variable {p q : Nat × Nat → Nat} {es : List (Nat × Nat)} {e : Nat × Nat} {v : Nat}

theorem mem_beside {x : Nat} : x ∈ beside p q es v ↔ ∃ e ∈ es, p e = v ∧ q e = x := by
  simp [beside, and_assoc]

variable (hpq : ∀ x y, p x = p y → q x = q y → x = y)

include hpq

theorem beside_insert : beside p q (if e ∈ es then es else es ++ [e]) v =
    if p e = v then (if q e ∈ beside p q es v then beside p q es v else beside p q es v ++ [q e])
    else beside p q es v := by
  by_cases he : e ∈ es
  · rw [if_pos he]
    split
    · next hv => rw [if_pos (mem_beside.mpr ⟨e, he, hv, rfl⟩)]
    · rfl
  · rw [if_neg he, beside, List.filter_append, List.map_append, ← beside]
    split
    · next hv =>
      have hnew : q e ∉ beside p q es v := by
        intro hm
        obtain ⟨x, hx, hp, hq⟩ := mem_beside.mp hm
        exact he (hpq x e (hp.trans hv.symm) hq ▸ hx)
      rw [if_neg hnew]
      simp [hv]
    · next hv => simp [hv]

theorem beside_remove : beside p q (es.filter fun x => !decide (x = e)) v =
    if p e = v then (beside p q es v).filter (fun u => !decide (u = q e)) else beside p q es v := by
  simp only [beside, List.filter_map, List.filter_filter]
  split
  · next hv =>
    congr 1
    apply List.filter_congr
    intro x _
    have hiff : p x = v → (x = e ↔ q x = q e) := fun hx =>
      ⟨congrArg q, hpq x e (hx.trans hv.symm)⟩
    by_cases hx : p x = v
    · simp [hx, hiff hx]
    · simp [hx]
  · next hv =>
    congr 1
    apply List.filter_congr
    intro x _
    by_cases hx : p x = v
    · have hne : x ≠ e := by
        rintro rfl
        exact hv hx
      simp [hx, hne]
    · simp [hx]

end Beside

theorem beside_apart {p q : Nat × Nat → Nat} {es es' : List (Nat × Nat)} {u v : Nat}
    (hes : es' = es.filter fun e => !decide (p e = v) && !decide (q e = v)) (hu : u ≠ v) :
    beside p q es' u = (beside p q es u).filter fun x => !decide (x = v) := by
  simp only [beside, hes, List.filter_map, List.filter_filter]
  congr 1
  apply List.filter_congr
  intro e _
  by_cases h : p e = u <;> simp [h, hu]

def targets (d : Diagram) (s : Nat) : List Nat :=
  (d.edges.keys.filter fun e => decide (e.1 = s)).map Prod.snd

def sources (d : Diagram) (t : Nat) : List Nat :=
  (d.edges.keys.filter fun e => decide (e.2 = t)).map Prod.fst

theorem targets_eq (d : Diagram) : d.targets = beside Prod.fst Prod.snd d.edges.keys := rfl

theorem sources_eq (d : Diagram) : d.sources = beside Prod.snd Prod.fst d.edges.keys := rfl

theorem mem_targets {d : Diagram} {s t : Nat} : t ∈ d.targets s ↔ (s, t) ∈ d.edges.keys := by
  simp [targets]

theorem mem_sources {d : Diagram} {s t : Nat} : s ∈ d.sources t ↔ (s, t) ∈ d.edges.keys := by
  simp [sources]

def Holds (table : Table Nat (Table Nat Value)) (near : Nat → List Nat) : Prop :=
  ∀ v ns, table.get? v = some ns → Table.keys ns = near v

section Neighbours
variable {table : Table Nat (Table Nat Value)} {near near' : Nat → List Nat}

theorem Holds.append (h : Holds table near) {v : Nat} (hv : near v = []) :
    Holds (table ++ [(v, [])]) near := by
  intro u ns hu
  rw [Table.get?_append] at hu
  cases ht : table.get? u with
  | some ns' =>
    rw [ht] at hu
    cases hu
    exact h u ns ht
  | none =>
    rw [ht, Option.none_or, Table.get?_cons] at hu
    split at hu
    · next huv =>
      cases hu
      change v = u at huv
      rw [← huv, hv]
      rfl
    · simp at hu

/-- The table and what it is to hold change at one box. -/
theorem Holds.adjust (h : Holds table near) {s : Nat} {f : Table Nat Value → Table Nat Value}
    {g : List Nat → List Nat} (hf : ∀ ns, (f ns).keys = g ns.keys)
    (hn : ∀ v, near' v = if s = v then g (near v) else near v) : Holds (table.adjust s f) near' := by
  intro v ns hv
  rw [Table.get?_adjust] at hv
  rw [hn]
  split at hv
  · next hs =>
    obtain ⟨ns', hns, rfl⟩ := Option.map_eq_some_iff.mp hv
    rw [if_pos hs, hf, h v ns' hns]
  · next hs =>
    rw [if_neg hs]
    exact h v ns hv

theorem Holds.putNew (h : Holds table near) {s x : Nat} {y : Value}
    (hn : ∀ v, near' v = if s = v then (if x ∈ near v then near v else near v ++ [x]) else near v) :
    Holds (table.adjust s (·.putNew x y)) near' := by
  apply h.adjust (g := fun us => if x ∈ us then us else us ++ [x])
  · intro ns
    exact Table.keys_putNew ns x y
  · exact hn

theorem Holds.remove (h : Holds table near) {s x : Nat}
    (hn : ∀ v, near' v = if s = v then (near v).filter (fun u => !decide (u = x)) else near v) :
    Holds (table.adjust s (·.remove x)) near' := by
  apply h.adjust (g := List.filter fun u => !decide (u = x))
  · intro ns
    exact Table.keys_remove ns x
  · exact hn

/-- Removing `x` at several boxes, one after the other. Where `x` is no neighbour nothing happens, so
all boxes may be treated alike. -/
theorem Holds.removeAll {us : List Nat} {x : Nat} (h : Holds table near)
    (hus : ∀ v, x ∈ near v → v ∈ us) :
    Holds (us.foldl (fun t u => t.adjust u (·.remove x)) table)
      fun v => (near v).filter fun u => !decide (u = x) := by
  induction us generalizing table near with
  | nil =>
    intro v ns hv
    have hx : x ∉ near v := fun hx => List.not_mem_nil (hus v hx)
    have hf : (near v).filter (fun u => !decide (u = x)) = near v := by
      apply List.filter_eq_self.mpr
      intro u hu
      simpa using fun (hux : u = x) => hx (hux ▸ hu)
    exact (h v ns hv).trans hf.symm
  | cons u us ih =>
    let kept := fun v => if u = v then (near v).filter (fun w => !decide (w = x)) else near v
    have hk : Holds (table.adjust u (·.remove x)) kept := h.remove fun v => rfl
    have hr := ih hk (fun v hx => by
      by_cases huv : u = v
      · simp [kept, huv] at hx
      · rw [show kept v = near v from if_neg huv] at hx
        rcases List.mem_cons.mp (hus v hx) with hvu | hv
        · exact absurd hvu.symm huv
        · exact hv)
    intro v ns hv
    rw [hr v ns hv]
    by_cases huv : u = v
    · simp [kept, huv]
    · simp [kept, huv]

/-- Taking a box out of the table itself. -/
theorem Holds.erase (h : Holds table near) (v : Nat) : Holds (table.remove v) near := by
  intro u ns hu
  rw [Table.get?_remove] at hu
  split at hu
  · cases hu
  · exact h u ns hu

theorem keys_foldl_remove (table : Table Nat (Table Nat Value)) (us : List Nat) (x : Nat) :
    (us.foldl (fun t u => t.adjust u (·.remove x)) table).keys = table.keys := by
  induction us generalizing table with
  | nil => rfl
  | cons u us ih => rw [List.foldl_cons, ih, Table.keys_adjust]

/-- Taking `v` out of the table and out of its neighbours there. -/
theorem Holds.unlink (h : Holds table near) {us : List Nat} {v : Nat} (hus : ∀ u, v ∈ near u → u ∈ us)
    (hn : ∀ u, u ≠ v → near' u = (near u).filter fun x => !decide (x = v)) :
    Holds (us.foldl (fun t u => t.adjust u (·.remove v)) (table.remove v)) near' := by
  intro u ns hu
  have huv : u ≠ v := by
    rintro rfl
    have hk := Table.mem_keys_of_get? hu
    rw [keys_foldl_remove, Table.keys_remove] at hk
    simp at hk
  rw [hn u huv]
  exact (h.erase v).removeAll hus u ns hu

end Neighbours

end StringDiagram.Diagram
