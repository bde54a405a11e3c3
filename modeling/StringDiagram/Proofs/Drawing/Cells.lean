import StringDiagram.Proofs.Drawing.Reading

/-! # The cells of a table

The label of a node is a table in markup, and its cells are where edges can be attached: those that name a
port. A scanner goes through the tags and their attributes. It gives up where a bracket stands inside a tag or
outside of all, so that markup it goes through has its brackets in pairs, and a DOT text reads it whole:
`scan_markup`. The table of a box has a cell for each port on each side: `scan_boxTable`. -/
namespace StringDiagram
open Text Dot

namespace Dot

inductive TagSpot where
  | outside
  | tag (name : List Char)
  | key (tag key : List Char)
  | value (tag key value : List Char)
  | lost
deriving DecidableEq

/-- The cell that an attribute makes of a tag: names are the same in capitals and in small letters. -/
def cellOf (tag key value : List Char) : List (List Char) :=
  if tag.map Char.toUpper = "TD".toList ∧ key.map Char.toUpper = "PORT".toList then [value] else []

def stepTag : TagSpot → Char → List (List Char) × TagSpot
  | .outside, c => ([], if c = '<' then .tag [] else if c = '>' then .lost else .outside)
  | .tag t, c =>
    ([], if c = ' ' then .key t []
      else if c = '>' then .outside
      -- What is no tag, but a comment or a declaration.
      else if c = '<' ∨ (c = '!' ∧ t = []) then .lost
      else .tag (t ++ [c]))
  | .key t k, c =>
    ([], if c = ' ' then .key t []
      else if c = '>' then .outside
      else if c = '<' then .lost
      else if c = '=' then .key t k
      else if c = '"' then .value t k []
      else .key t (k ++ [c]))
  | .value t k v, c =>
    if c = '"' then (cellOf t k v, .key t [])
    else if c = '<' ∨ c = '>' then ([], .lost)
    else ([], .value t k (v ++ [c]))
  | .lost, _ => ([], .lost)

def cells (markup : List Char) : List (List Char) := (scan stepTag .outside markup).1

def TagSpot.depth : TagSpot → Nat
  | .outside | .lost => 0
  | .tag _ | .key _ _ | .value _ _ _ => 1

section Scanning
variable {u v w t k : List Char} {out : List (List Char)} {q q' : TagSpot}

theorem scan_stepTag_lost (cs : List Char) : scan stepTag .lost cs = ([], .lost) := by
  induction cs with
  | nil => rfl
  | cons c cs ih => rw [scan_cons, stepTag, ih]; rfl

/-- One character that the scanner of tags goes through is part of the markup. Only the first character of a
tag stands right behind an opening bracket. -/
theorem step_markup {c : Char} (hlost : (stepTag q c).2 ≠ .lost) (hw : w.getLast? = some '<' → q = .tag []) :
    step (.markup w q.depth) c = ([], .markup (w ++ [c]) (stepTag q c).2.depth) ∧
      (c = '<' → (stepTag q c).2 = .tag []) := by
  by_cases hopen : c = '<'
  · subst hopen
    cases q <;> simp_all [stepTag, step, stepMarkup, TagSpot.depth]
  by_cases hclose : c = '>'
  · subst hclose
    cases q <;> simp_all [stepTag, step, stepMarkup, TagSpot.depth]
  refine ⟨?_, fun h => absurd h hopen⟩
  have hbang : ¬ (c = '!' ∧ w.getLast? = some '<') := by
    rintro ⟨rfl, hlast⟩
    rw [hw hlast] at hlost
    exact hlost rfl
  have hdepth : (stepTag q c).2.depth = q.depth := by
    cases q <;> simp only [stepTag] at hlost ⊢ <;> split_ifs at hlost ⊢ <;> simp_all [TagSpot.depth]
  rw [hdepth, step, stepMarkup, if_neg hopen, if_neg hbang, if_pos hclose]

/-- Markup that the scanner of tags goes through is read whole. -/
theorem scan_markup (h : scan stepTag q u = (out, q')) (hq' : q' ≠ .lost)
    (hw : w.getLast? = some '<' → q = .tag []) :
    scan step (.markup w q.depth) u = ([], .markup (w ++ u) q'.depth) := by
  induction u generalizing w q out with
  | nil =>
    cases h
    rw [List.append_nil, scan_nil]
  | cons c cs ih =>
    rw [scan_cons, Prod.mk.injEq] at h
    have hlost : (stepTag q c).2 ≠ .lost := fun hlost => by
      rw [hlost, scan_stepTag_lost] at h
      exact hq' h.2.symm
    obtain ⟨hstep, hopen⟩ := step_markup (w := w) hlost hw
    rw [scan_cons, hstep, ih (Prod.ext rfl h.2) fun hlast => hopen (by simpa using hlast)]
    simp

theorem scan_silent {p : TagSpot} (h : scan stepTag p u = ([], q)) (h' : scan stepTag q v = (out, q')) :
    scan stepTag p (u ++ v) = (out, q') := scan_append h h'

/-- The end of a tag. -/
theorem scan_close (h : scan stepTag .outside u = (out, q)) : scan stepTag (.key t k) ('>' :: u) = (out, q) :=
  scan_silent (u := ['>']) rfl h

def IsPlain (s : List Char) : Prop := ∀ c ∈ s, c ≠ '"' ∧ c ≠ '<' ∧ c ≠ '>'

instance (s : List Char) : Decidable (IsPlain s) :=
  decidable_of_iff (s.all fun c => c != '"' && (c != '<' && c != '>')) (by simp [IsPlain])

theorem scan_value (h : IsPlain u) : scan stepTag (.value t k v) u = ([], .value t k (v ++ u)) := by
  induction u generalizing v with
  | nil => simp
  | cons c cs ih =>
    obtain ⟨hc, hcs⟩ := List.forall_mem_cons.mp h
    have hstep : stepTag (.value t k v) c = ([], .value t k (v ++ [c])) := by
      rw [stepTag, if_neg hc.1, if_neg (not_or.mpr hc.2)]
    rw [scan_cons, hstep, ih hcs]
    simp

/-- An attribute that is open is read up to its quotation mark. -/
theorem scan_attribute (hu : IsPlain u) (h : scan stepTag (.key t []) v = (out, q)) :
    scan stepTag (.value t k []) (u ++ '"' :: v) = (cellOf t k u ++ out, q) := by
  have hclose : scan stepTag (.value t k u) ('"' :: v) = (cellOf t k u ++ out, q) := by
    rw [scan_cons, stepTag, if_pos rfl, h]
  simpa using scan_append (scan_value hu) hclose

theorem scan_words (h : ∀ c ∈ u, c ≠ '<' ∧ c ≠ '>') : scan stepTag .outside u = ([], .outside) := by
  induction u with
  | nil => rfl
  | cons c cs ih =>
    obtain ⟨hc, hcs⟩ := List.forall_mem_cons.mp h
    rw [scan_cons, stepTag, if_neg hc.1, if_neg hc.2, ih hcs]
    rfl

theorem isPlain_figures (i : Int) : IsPlain (figures i) := by
  intro c hc
  have hf := isFigure_of_mem hc
  refine ⟨?_, ?_, ?_⟩ <;> rintro rfl <;> cases hf

theorem isPlain_portText (side : Side) (j : Int) : IsPlain (portText side j) := by
  intro c hc
  have hport := of_mem_portText hc
  refine ⟨?_, ?_, ?_⟩ <;> rintro rfl <;> cases hport

/-- The name of a box has no brackets left in it. -/
theorem ne_bracket_of_encode {s : List Char} {c : Char} (h : c ∈ Markup.encode s) : c ≠ '<' ∧ c ≠ '>' := by
  obtain ⟨d, -, hc⟩ := List.mem_flatMap.mp h
  rcases Markup.entity_cases d with ⟨e, he, -, hd⟩ | ⟨hd, -, hlt⟩ <;> rw [hd] at hc
  · have hname : ∀ e ∈ Markup.entities, IsPlain ('&' :: (e.2 ++ [';'])) := by decide
    exact (hname e he c hc).2
  · rw [List.mem_singleton] at hc
    subst hc
    refine ⟨hlt, ?_⟩
    rintro rfl
    exact absurd hd (by decide)

end Scanning
end Dot

/-- A palette whose colours end where their quotation marks do, and have no brackets in them. -/
structure Palette.Plain (p : Palette) : Prop where
  background : IsPlain p.background.toList
  box : IsPlain p.box.toList
  nestedBox : IsPlain p.nestedBox.toList
  boundary : IsPlain p.boundary.toList
  dark : IsPlain p.dark.toList
  portBorder : IsPlain p.portBorder.toList

namespace Palette
variable {p : Palette} {side : Side} {m n : Nat}

theorem plain_of_named (hp : p ∈ named.map Prod.snd) : p.Plain := by
  have hall : ∀ p ∈ named.map Prod.snd, ∀ colour ∈ [p.background, p.box, p.nestedBox, p.boundary, p.dark,
    p.portBorder], IsPlain colour.toList := by decide
  have h := hall p hp
  simp only [List.forall_mem_cons] at h
  exact ⟨h.1, h.2.1, h.2.2.1, h.2.2.2.1, h.2.2.2.2.1, h.2.2.2.2.2.1⟩

theorem cellOf_port (v : List Char) : cellOf "TD".toList "PORT".toList v = [v] := if_pos (by decide)

theorem cellOf_of_ne {t k v : List Char} (h : k.map Char.toUpper ≠ "PORT".toList) : cellOf t k v = [] :=
  if_neg fun hp => h hp.2

/-- A cell names one port. -/
theorem scan_portCell (hp : p.Plain) (side : Side) (i : Nat) :
    scan stepTag .outside (p.portCell side i).toList = ([portText side i], .outside) := by
  have hcolour : "\" BGCOLOR=\"".toList = '"' :: " BGCOLOR=\"".toList := by simp
  have hend : "\">".toList = ['"', '>'] := by simp
  have hnumber : scan stepTag .outside (figures i ++ "</FONT></TD>".toList) = ([], .outside) :=
    scan_silent (scan_words fun c hc => (isPlain_figures i c hc).2) (by decide)
  have hfont : scan stepTag .outside ("<FONT POINT-SIZE=\"10.0\" FACE=\"".toList ++ (fontface.toList ++
      ("\" COLOR=\"".toList ++ (p.dark.toList ++ '"' :: '>' :: (figures i ++ "</FONT></TD>".toList))))) =
      ([], .outside) := by
    refine scan_silent (q := .value "FONT".toList "FACE".toList []) (by decide) ?_
    refine scan_silent (q := .value "FONT".toList "FACE".toList fontface.toList) (by decide) ?_
    refine scan_silent (q := .value "FONT".toList "COLOR".toList []) (by decide) ?_
    rw [scan_attribute hp.dark (scan_close hnumber), cellOf_of_ne (by decide), List.nil_append]
  have htext : (p.portCell side i).toList = "<TD PORT=\"".toList ++ (portText side i ++ '"' ::
    (" BGCOLOR=\"".toList ++ (p.background.toList ++ '"' :: '>' ::
      ("<FONT POINT-SIZE=\"10.0\" FACE=\"".toList ++ (fontface.toList ++ ("\" COLOR=\"".toList ++
        (p.dark.toList ++ '"' :: '>' :: (figures i ++ "</FONT></TD>".toList)))))))) := by
    unfold portCell
    simp only [String.toList_append, List.append_assoc, hcolour, hend, List.cons_append, portText,
      Nat.toString_eq_repr, toList_repr, List.nil_append]
  have hbackground : scan stepTag (.key "TD".toList []) (" BGCOLOR=\"".toList ++ (p.background.toList ++ '"' :: '>' ::
      ("<FONT POINT-SIZE=\"10.0\" FACE=\"".toList ++ (fontface.toList ++ ("\" COLOR=\"".toList ++
        (p.dark.toList ++ '"' :: '>' :: (figures i ++ "</FONT></TD>".toList))))))) = ([], .outside) := by
    refine scan_silent (q := .value "TD".toList "BGCOLOR".toList []) (by decide) ?_
    rw [scan_attribute hp.background (scan_close hfont), cellOf_of_ne (by decide), List.nil_append]
  rw [htext, scan_silent (q := .value "TD".toList "PORT".toList []) (by decide)
    (scan_attribute (isPlain_portText side i) hbackground), cellOf_port]
  rfl

def portNames (side : Side) (n : Nat) : List (List Char) := (List.range n).map fun i : Nat => portText side i

theorem portText_inj {side side' : Side} {i j : Int} (h : portText side i = portText side' j) :
    side = side' ∧ i = j := by
  have hcut := portText_cut (x := []) (y := []) (congrArg (· ++ ['"']) h)
  exact ⟨hcut.1, hcut.2.1⟩

theorem mem_portNames {side side' : Side} {j : Int} {n : Nat} :
    portText side j ∈ portNames side' n ↔ side = side' ∧ 0 ≤ j ∧ j < n := by
  simp only [portNames, List.mem_map, List.mem_range]
  constructor
  · rintro ⟨i, hi, h⟩
    obtain ⟨rfl, rfl⟩ := portText_inj h
    exact ⟨rfl, by omega, by omega⟩
  · rintro ⟨rfl, h0, hj⟩
    lift j to Nat using h0
    exact ⟨j, by omega, rfl⟩

theorem nodup_portNames (m n : Nat) : (portNames .input m ++ portNames .output n).Nodup := by
  have hnames : ∀ side k, (portNames side k).Nodup := fun side k =>
    List.nodup_range.map fun i j h => Int.ofNat_inj.mp (portText_inj h).2
  refine List.nodup_append.mpr ⟨hnames _ _, hnames _ _, ?_⟩
  rintro u hu v hv rfl
  obtain ⟨i, -, rfl⟩ := List.mem_map.mp hu
  cases (mem_portNames.mp hv).1

theorem scan_portsRow (hp : p.Plain) (side : Side) (n : Nat) :
    scan stepTag .outside (p.portsRow side n).toList = (portNames side n, .outside) := by
  by_cases hn : n = 0
  · subst hn
    rfl
  have hcells : ∀ is : List Nat, scan stepTag .outside (is.flatMap fun i => (p.portCell side i).toList) =
      (is.map fun i : Nat => portText side i, .outside) := by
    intro is
    induction is with
    | nil => rfl
    | cons i is ih => exact scan_append (scan_portCell hp side i) ih
  have hmark : "\"><TR>".toList = '"' :: '>' :: "<TR>".toList := by simp
  have hrow := scan_append (hcells (List.range n))
    (by decide : scan stepTag .outside "</TR></TABLE></TD></TR>".toList = ([], .outside))
  rw [List.append_nil] at hrow
  have hstart := scan_silent (by decide : scan stepTag .outside "<TR>".toList = ([], .outside)) hrow
  rw [toList_portsRow hn, hmark, List.cons_append, List.cons_append]
  refine scan_silent (q := .value "TABLE".toList "COLOR".toList []) (by decide) ?_
  rw [scan_attribute hp.portBorder (scan_close hstart), cellOf_of_ne (by decide)]
  rfl

theorem scan_label (hp : p.Plain) {label : String} (hlabel : ∀ c ∈ label.toList, c ≠ '<' ∧ c ≠ '>')
    {u : List Char} {out : List (List Char)} {q : TagSpot} (h : scan stepTag .outside u = (out, q)) :
    scan stepTag .outside ("<TR><TD><FONT POINT-SIZE=\"11.0\" FACE=\"".toList ++ (fontface.toList ++
      ("\" COLOR=\"".toList ++ (p.dark.toList ++ ("\"><B>".toList ++ (label.toList ++
        ("</B></FONT></TD></TR>".toList ++ u))))))) = (out, q) := by
  have hbold : "\"><B>".toList = '"' :: '>' :: "<B>".toList := by simp
  have hend : scan stepTag .outside ("</B></FONT></TD></TR>".toList ++ u) = (out, q) :=
    scan_silent (by decide) h
  have hname : scan stepTag .outside ("<B>".toList ++ (label.toList ++ ("</B></FONT></TD></TR>".toList ++ u))) =
      (out, q) := scan_silent (q := .outside) (by decide) (scan_silent (scan_words hlabel) hend)
  refine scan_silent (q := .value "FONT".toList "FACE".toList []) (by decide) ?_
  refine scan_silent (q := .value "FONT".toList "FACE".toList fontface.toList) (by decide) ?_
  refine scan_silent (q := .value "FONT".toList "COLOR".toList []) (by decide) ?_
  rw [hbold, List.cons_append, List.cons_append, scan_attribute hp.dark (scan_close hname),
    cellOf_of_ne (by decide), List.nil_append]

/-- The table of a box has a cell for each of its ports, and no other cells than those that the colour of its
border brings. -/
theorem scan_boxTable_of_colour (hp : p.Plain) {label fill colour : String} {border : Nat}
    (hlabel : ∀ c ∈ label.toList, c ≠ '<' ∧ c ≠ '>') (hfill : IsPlain fill.toList) {brought : List (List Char)}
    (hcolour : scan stepTag (.value "TABLE".toList "COLOR".toList []) (colour.toList ++ ['"', '>']) =
      (brought, .outside)) : scan stepTag .outside (p.boxTable label m n fill colour border).toList =
      (brought ++ (portNames .input m ++ portNames .output n), .outside) := by
  have hborder : "\" CELLBORDER=\"0\" CELLSPACING=\"1\" CELLPADDING=\"1\" BGCOLOR=\"".toList =
    '"' :: " CELLBORDER=\"0\" CELLSPACING=\"1\" CELLPADDING=\"1\" BGCOLOR=\"".toList := by simp
  have hmark : "\" COLOR=\"".toList = '"' :: " COLOR=\"".toList := by simp
  have hend : "\">".toList = '"' :: ['>'] := by simp
  have hrows := scan_append (scan_portsRow hp .input m) (scan_label hp hlabel (scan_append (scan_portsRow hp .output n)
    (by decide : scan stepTag .outside "</TABLE>".toList = ([], .outside))))
  rw [List.append_nil] at hrows
  have hcolours := scan_silent (by decide : scan stepTag (.key "TABLE".toList []) " COLOR=\"".toList =
    ([], .value "TABLE".toList "COLOR".toList [])) (scan_append hcolour hrows)
  have hfills := scan_silent (by decide : scan stepTag (.key "TABLE".toList [])
    " CELLBORDER=\"0\" CELLSPACING=\"1\" CELLPADDING=\"1\" BGCOLOR=\"".toList =
      ([], .value "TABLE".toList "BGCOLOR".toList [])) (scan_attribute hfill hcolours)
  rw [cellOf_of_ne (by decide), List.nil_append] at hfills
  have htable := scan_silent (by decide : scan stepTag .outside "<TABLE BORDER=\"".toList =
    ([], .value "TABLE".toList "BORDER".toList [])) (scan_attribute (isPlain_figures border) hfills)
  rw [cellOf_of_ne (by decide), List.nil_append] at htable
  refine Eq.trans (congrArg _ ?_) htable
  unfold boxTable
  simp only [String.toList_append, List.append_assoc, hborder, hmark, hend, List.cons_append, List.nil_append,
    Nat.toString_eq_repr, toList_repr]

theorem scan_boxTable (hp : p.Plain) {label fill colour : String} {border : Nat}
    (hlabel : ∀ c ∈ label.toList, c ≠ '<' ∧ c ≠ '>') (hfill : IsPlain fill.toList)
    (hcolour : IsPlain colour.toList) :
    scan stepTag .outside (p.boxTable label m n fill colour border).toList =
      (portNames .input m ++ portNames .output n, .outside) := by
  have hbrought : scan stepTag (.value "TABLE".toList "COLOR".toList []) (colour.toList ++ ['"', '>']) =
      ([], .outside) := by
    rw [scan_attribute hcolour (scan_close (scan_nil TagSpot.outside)), cellOf_of_ne (by decide)]
    rfl
  exact scan_boxTable_of_colour hp hlabel hfill hbrought

end Palette
end StringDiagram
