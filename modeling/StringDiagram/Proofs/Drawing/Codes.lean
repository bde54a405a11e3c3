import Mathlib
import StringDiagram.Drawing

/-! # Texts that can be read back

A text decodes if what comes after it does not matter for reading it: the texts of two values start
alike only if the values are equal. Numbers decode up to a character that stands in none, and so do escaped
names, in which no angle bracket stands. A document writes numbers as they are. -/
namespace StringDiagram.Text
variable {α : Type} {f : α → List Char} {u v x y : List Char}

/-- What follows the text of a value does not matter for reading it. -/
def Decodes (f : α → List Char) : Prop := ∀ a b x y, f a ++ x = f b ++ y → a = b ∧ x = y

/-- A list decodes up to a text that no member of it starts. -/
theorem Decodes.flatMap (hf : Decodes f) {as bs : List α} (hx : ∀ a z, f a ++ z ≠ x)
    (hy : ∀ a z, f a ++ z ≠ y) (h : as.flatMap f ++ x = bs.flatMap f ++ y) : as = bs ∧ x = y := by
  induction as generalizing bs with
  | nil =>
    cases bs with
    | nil => exact ⟨rfl, h⟩
    | cons b bs => exact absurd h.symm (by rw [List.flatMap_cons, List.append_assoc]; exact hx b _)
  | cons a as ih =>
    cases bs with
    | nil => exact absurd h (by rw [List.flatMap_cons, List.append_assoc]; exact hy a _)
    | cons b bs =>
      rw [List.flatMap_cons, List.flatMap_cons, List.append_assoc, List.append_assoc] at h
      obtain ⟨rfl, hrest⟩ := hf a b _ _ h
      obtain ⟨rfl, hxy⟩ := ih hrest
      exact ⟨rfl, hxy⟩

/-- Two texts that differ in a character do not start alike. -/
theorem append_ne {c d : Char} (i : Nat) (hu : u[i]? = some c) (hv : v[i]? = some d) (hne : c ≠ d) :
    u ++ x ≠ v ++ y := by
  intro h
  have hi := (List.getElem?_eq_some_iff.mp hu).1
  have hi' := (List.getElem?_eq_some_iff.mp hv).1
  have hget := congrArg (·[i]?) h
  simp only [List.getElem?_append_left hi, List.getElem?_append_left hi', hu, hv, Option.some.injEq] at hget
  exact hne hget

/-- Characters with a property end where the first one without it stands. -/
theorem cut {p : Char → Bool} {c d : Char} (hu : ∀ c ∈ u, p c = true) (hv : ∀ c ∈ v, p c = true)
    (hc : p c = false) (hd : p d = false) (h : u ++ c :: x = v ++ d :: y) : u = v ∧ c = d ∧ x = y := by
  induction u generalizing v with
  | nil =>
    cases v with
    | nil => simpa using h
    | cons a v =>
      obtain ⟨rfl, -⟩ := List.cons.inj h
      exact absurd (hv c List.mem_cons_self) (by simp [hc])
  | cons a u ih =>
    cases v with
    | nil =>
      obtain ⟨rfl, -⟩ := List.cons.inj h
      exact absurd (hu a List.mem_cons_self) (by simp [hd])
    | cons b v =>
      obtain ⟨rfl, hrest⟩ := List.cons.inj h
      obtain ⟨rfl, hcd⟩ := ih (fun e he => hu e (List.mem_cons_of_mem _ he))
        (fun e he => hv e (List.mem_cons_of_mem _ he)) hrest
      exact ⟨rfl, hcd⟩

section Numbers

def isFigure (c : Char) : Bool := c.isDigit || c == '-'

def figures (i : Int) : List Char := (toString i).toList

theorem figures_ofNat (n : Nat) : figures n = Nat.toDigits 10 n := by
  rw [figures, Int.toString_eq_repr, Int.repr_eq_if, if_pos (Int.natCast_nonneg n), Int.toNat_natCast,
    Nat.toList_repr]

/-- A number is digits, which may follow a sign. -/
theorem figures_cases (i : Int) : ∃ n, figures i = Nat.toDigits 10 n ∨ figures i = '-' :: Nat.toDigits 10 n := by
  rcases Int.le_total 0 i with h | h
  · exact ⟨i.toNat, .inl (by rw [← figures_ofNat, Int.toNat_of_nonneg h])⟩
  · rcases Int.lt_or_eq_of_le h with h | rfl
    · exact ⟨(-i).toNat, .inr (by
        rw [figures, Int.toString_eq_repr, Int.repr_eq_if, if_neg (by omega), String.toList_append,
          Nat.toList_repr]
        rfl)⟩
    · exact ⟨0, .inl (figures_ofNat 0)⟩

theorem isDigit_of_mem {n : Nat} {c : Char} (h : c ∈ Nat.toDigits 10 n) : c.isDigit = true :=
  Nat.isDigit_of_mem_toDigits (by omega) (by omega) h

theorem isFigure_of_mem {i : Int} {c : Char} (h : c ∈ figures i) : isFigure c = true := by
  obtain ⟨n, hi | hi⟩ := figures_cases i <;> rw [hi] at h
  · simp [isFigure, isDigit_of_mem h]
  · rcases List.mem_cons.mp h with rfl | h
    · rfl
    · simp [isFigure, isDigit_of_mem h]

theorem figures_inj {i j : Int} : figures i = figures j ↔ i = j := by
  rw [figures, figures, String.toList_inj, Int.toString_eq_repr, Int.toString_eq_repr, Int.repr_inj]

/-- A number decodes up to a character that is in none. -/
theorem figures_cut {i j : Int} {c d : Char} (hc : isFigure c = false) (hd : isFigure d = false)
    (h : figures i ++ c :: x = figures j ++ d :: y) : i = j ∧ c = d ∧ x = y := by
  obtain ⟨hij, hcd⟩ := cut (fun _ => isFigure_of_mem) (fun _ => isFigure_of_mem) hc hd h
  exact ⟨figures_inj.mp hij, hcd⟩

end Numbers

namespace Markup

def entities : List (Char × List Char) :=
  [('&', ['a', 'm', 'p']), ('<', ['l', 't']), ('>', ['g', 't']), ('"', ['q', 'u', 'o', 't']),
    ('\'', ['#', 'x', '2', '7'])]

theorem entity_cases (c : Char) : (∃ e ∈ entities, c = e.1 ∧ entity c = '&' :: (e.2 ++ [';'])) ∨
    entity c = [c] ∧ c ≠ '&' ∧ c ≠ '<' := by
  fun_cases entity c
  case case6 hamp hlt _ _ _ => exact .inr ⟨rfl, hamp, hlt⟩
  all_goals exact .inl (by simp [entities])

/-- An entity ends with the first semicolon in it. -/
theorem entity_decodes : Decodes entity := by
  intro a b x y h
  have hname : ∀ e ∈ entities, ∀ c ∈ e.2, (c != ';') = true := by simp [entities]
  have hinj : ∀ e ∈ entities, ∀ e' ∈ entities, e.2 = e'.2 → e.1 = e'.1 := by simp [entities]
  rcases entity_cases a with ⟨e, he, rfl, ha⟩ | ⟨ha, hamp, -⟩ <;>
    rcases entity_cases b with ⟨e', he', rfl, hb⟩ | ⟨hb, hamp', -⟩ <;>
      simp only [ha, hb, List.cons_append, List.nil_append, List.append_assoc, List.cons.injEq] at h
  · obtain ⟨hee, -, hxy⟩ := cut (hname e he) (hname e' he') rfl rfl h.2
    exact ⟨hinj e he e' he' hee, hxy⟩
  · exact absurd h.1.symm hamp'
  · exact absurd h.1 hamp
  · exact h

theorem entity_ne (c : Char) (x y : List Char) : entity c ++ x ≠ '<' :: y := by
  intro h
  rcases entity_cases c with ⟨e, -, -, hc⟩ | ⟨hc, -, hlt⟩ <;> rw [hc] at h
  · exact absurd (List.cons.inj h).1 (by decide)
  · exact hlt (List.cons.inj h).1

/-- An escaped name decodes up to the markup after it. -/
theorem encode_cut {s t : List Char} (h : encode s ++ '<' :: x = encode t ++ '<' :: y) : s = t ∧ x = y := by
  have hxy := entity_decodes.flatMap (fun _ _ => entity_ne _ _ _) (fun _ _ => entity_ne _ _ _) h
  simpa using hxy

end Markup
end StringDiagram.Text

namespace StringDiagram.Dot
open Text

section Quoting
variable {s : List Char}

theorem quote_of_identifier (h : isIdentifier s = true) : quote s = s := by simp [quote, h]

/-- What starts and ends with an angle bracket is written as it is. -/
theorem quote_markup (s : List Char) : quote ('<' :: s ++ ['>']) = '<' :: s ++ ['>'] := by
  simp [quote, isMarkup]

theorem isUnsigned_digits (n : Nat) : isUnsigned (Nat.toDigits 10 n) = true := by
  have hall : ∀ c ∈ Nat.toDigits 10 n, c.isDigit = true := fun _ => isDigit_of_mem
  cases hds : Nat.toDigits 10 n with
  | nil => exact absurd hds Nat.toDigits_ne_nil
  | cons c cs =>
    rw [hds] at hall
    have hc : c ≠ '.' := by
      rintro rfl
      exact absurd (hall '.' List.mem_cons_self) (by decide)
    rw [isUnsigned.eq_2 _ (by rintro ds heq; exact hc (List.cons.inj heq).1)]
    rw [List.takeWhile_eq_self_iff.mpr hall, List.dropWhile_eq_nil_iff.mpr hall]
    rfl

theorem isNumeral_figures (i : Int) : isNumeral (figures i) = true := by
  obtain ⟨n, hi | hi⟩ := figures_cases i
  · have hu := isUnsigned_digits n
    cases hds : Nat.toDigits 10 n with
    | nil => exact absurd hds Nat.toDigits_ne_nil
    | cons c cs =>
      have hc : c ≠ '-' := by
        rintro rfl
        exact absurd (isDigit_of_mem (hds ▸ List.mem_cons_self)) (by decide)
      rw [hi, hds, isNumeral.eq_2 _ (by rintro ds heq; exact hc (List.cons.inj heq).1), ← hds]
      exact hu
  · rw [hi]
    exact isUnsigned_digits n

theorem toLower_of_isFigure {c : Char} (h : isFigure c = true) : c.toLower = c := by
  have hle : c.val ≤ '9'.val := by
    rcases Bool.or_eq_true _ _ ▸ h with h | h
    · exact of_decide_eq_true (Bool.and_eq_true _ _ ▸ h).2
    · rw [eq_of_beq h]
      decide
  exact dif_neg fun hc => absurd (UInt32.le_trans hc.1 hle) (by decide)

/-- No keyword is a number. -/
theorem figures_not_keyword (i : Int) : figures i ∉ keywords := by
  intro h
  have hk : ∀ k ∈ keywords, ∃ c ∈ k, isFigure c = false := by simp [keywords, isFigure]
  obtain ⟨c, hc, hfigure⟩ := hk _ h
  rw [isFigure_of_mem hc] at hfigure
  cases hfigure

/-- Numbers are written as they are. -/
theorem quote_figures (i : Int) : quote (figures i) = figures i := by
  refine quote_of_identifier ?_
  have hlower : (figures i).map Char.toLower = figures i :=
    (List.map_congr_left fun c hc => toLower_of_isFigure (isFigure_of_mem hc)).trans (List.map_id _)
  have hlast : (figures i).getLast? ≠ some '\n' := fun h =>
    absurd (isFigure_of_mem (List.mem_of_getLast? h)) (by decide)
  simp [isIdentifier, hlower, hlast, isNumeral_figures, figures_not_keyword]

theorem escapeMarks_of_forall {s : List Char} (h : ∀ c ∈ s, c ≠ '\\' ∧ c ≠ '"') (odd : Bool) :
    escapeMarks odd s = s := by
  fun_induction escapeMarks odd s with
  | case1 => rfl
  | case2 odd cs ih => exact absurd rfl (h _ List.mem_cons_self).1
  | case3 odd cs ih => exact absurd rfl (h _ List.mem_cons_self).2
  | case4 odd c cs hc hc' ih => rw [ih fun d hd => h d (List.mem_cons_of_mem _ hd)]

def portText (side : Side) (j : Int) : List Char := side.portPrefix.toList ++ figures j

theorem of_mem_portText {side : Side} {j : Int} {c : Char} (h : c ∈ portText side j) :
    (isFigure c || isNameStart c || c == '.') = true := by
  rcases List.mem_append.mp h with hc | hc
  · cases side <;> simp [Side.portPrefix] at hc <;> rcases hc with rfl | rfl | rfl | rfl <;> rfl
  · simp [isFigure_of_mem hc]

/-- The text of a port has a point after letters, so it goes between quotation marks. -/
theorem quote_portText (side : Side) (j : Int) : quote (portText side j) = '"' :: portText side j ++ ['"'] := by
  have hescape : escapeMarks false (portText side j) = portText side j := by
    refine escapeMarks_of_forall (fun c hc => ?_) false
    constructor <;> rintro rfl <;> cases of_mem_portText hc
  have hlast : (portText side j).getLast? ≠ some '\n' := fun h => by
    cases of_mem_portText (List.mem_of_getLast? h)
  have hword : (isName (portText side j) || isNumeral (portText side j)) = false := by
    cases side <;> simp [portText, Side.portPrefix, isName, isNumeral, isUnsigned, isNameStart]
  have hmarkup : isMarkup (portText side j) = false := by
    cases side <;> rfl
  simp [quote, isIdentifier, hlast, hword, hmarkup, hescape]

theorem splitColon_of_forall {s : List Char} (h : ∀ c ∈ s, (c != ':') = true) : splitColon s = (s, []) := by
  rw [splitColon, List.takeWhile_eq_self_iff.mpr h, List.dropWhile_eq_nil_iff.mpr h]
  rfl

theorem splitColon_append {s : List Char} (h : ∀ c ∈ s, (c != ':') = true) (t : List Char) :
    splitColon (s ++ ':' :: t) = (s, t) := by
  rw [splitColon, List.takeWhile_append_of_pos h, List.dropWhile_append_of_pos h]
  simp

theorem splitColon_portText (side : Side) (j : Int) : splitColon (portText side j) = (portText side j, []) := by
  refine splitColon_of_forall fun c hc => bne_iff_ne.mpr ?_
  rintro rfl
  cases of_mem_portText hc

theorem splitColon_port (i j : Int) (side : Side) :
    splitColon (figures i ++ ':' :: portText side j) = (figures i, portText side j) := by
  refine splitColon_append (fun c hc => bne_iff_ne.mpr ?_) _
  rintro rfl
  cases isFigure_of_mem hc

theorem isEmpty_portText (side : Side) (j : Int) : (portText side j).isEmpty = false := by cases side <;> rfl

/-- The end of an edge at a port. -/
theorem edgeEnd_port (i j : Int) (side : Side) :
    edgeEnd (figures i ++ ':' :: portText side j) = figures i ++ ':' :: '"' :: portText side j ++ ['"'] := by
  simp [edgeEnd, splitColon_port, splitColon_portText, isEmpty_portText, quote_figures, quote_portText]

end Quoting
end StringDiagram.Dot
