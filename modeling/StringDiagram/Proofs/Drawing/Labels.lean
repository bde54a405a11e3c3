import StringDiagram.Proofs.Drawing.Injective
import StringDiagram.Proofs.Drawing.Tokens
import StringDiagram.Proofs.Validity.Types

/-! # The labels of wires

The name of a box is escaped before it goes into a drawing, but the type at a wire is not: its text is the
label as it is. So the label is read back as the type's text if and only if the text is `Literal`: it is not
taken for markup, does not lose a line break, and has no backslash that escapes what comes after it
(`labels_read`). Other texts are read as something else, and two of them can be written alike. -/
namespace StringDiagram
open Diagram Text Dot

namespace Dot

/-- No backslash stands unescaped before a quotation mark, a line break or the end. -/
def steady : Bool → List Char → Bool
  | escaping, [] => !escaping
  | escaping, '\\' :: cs => steady (!escaping) cs
  | escaping, c :: cs => !(escaping && (c == '"' || c == '\n')) && steady false cs

/-- A text that can be read back from what is written for it. -/
structure Literal (s : List Char) : Prop where
  not_markup : isMarkup s = false
  unbroken : isIdentifier s = true → s.getLast? ≠ some '\n'
  steady : steady false s = true

/-- The written text is a string or a word that holds `s`, and it ends where it should: whatever comes after
it is read on its own. -/
def Quotes (u s : List Char) : Prop := ∀ cs, scan step .between (u ++ ' ' :: cs) =
  (.datum (.text s) :: (scan step .between cs).1, (scan step .between cs).2)

section Literal
variable {s t : List Char}

theorem length_content_le (escaping : Bool) (s : List Char) :
    (content escaping s).length ≤ s.length + escaping.toNat := by
  fun_induction content escaping s <;> simp_all <;> omega

theorem steady_iff (escaping : Bool) (s : List Char) : steady escaping s = true ↔
    unpaired escaping s = false ∧ content escaping s = if escaping then '\\' :: s else s := by
  fun_induction content escaping s with
  | case1 escaping => cases escaping <;> simp [steady, unpaired]
  | case2 cs ih => simpa [steady, unpaired] using ih
  | case3 cs ih => simpa [steady, unpaired] using ih
  | case4 escaping cs ih => cases escaping <;> simp [steady, unpaired, ih]
  | case5 cs ih =>
    -- The line break and the backslash before it are both lost.
    have hne : content false cs ≠ '\\' :: '\n' :: cs := fun heq => by
      have hle := length_content_le false cs
      rw [heq, List.length_cons, List.length_cons, Bool.toNat_false] at hle
      omega
    simp [steady, hne]
  | case6 c cs hb hq hn ih =>
    replace hb : c ≠ '\\' := hb
    replace hq : c ≠ '"' := hq
    replace hn : c ≠ '\n' := hn
    simp [steady, unpaired, hq, hn, ih]
  | case7 c cs hb hq ih =>
    replace hb : c ≠ '\\' := hb
    simp [steady, unpaired, ih]

theorem steady_of_forall (h : ∀ c ∈ s, c ≠ '\\') : steady false s = true := by
  induction s with
  | nil => rfl
  | cons c cs ih =>
    obtain ⟨hc, hcs⟩ := List.forall_mem_cons.mp h
    simp [steady, ih hcs]

/-- The characters of words are no backslashes. -/
theorem IsWord.ne_backslash (h : IsWord s) : ∀ c ∈ s, c ≠ '\\' := by
  cases s with
  | nil => exact nofun
  | cons c cs =>
    refine List.forall_mem_cons.mpr ⟨?_, fun d hd => ?_⟩
    · rintro rfl
      exact absurd h.1 (by decide)
    · rintro rfl
      exact absurd (h.2 _ hd) (by decide)

theorem written?_eq_text_iff : written? s = some (.text s) ↔ Literal s := by
  cases hm : isMarkup s with
  | true => exact ⟨fun h => absurd h (written?_markup hm s), fun h => absurd (hm.symm.trans h.not_markup) nofun⟩
  | false =>
    cases hi : isIdentifier s with
    | true =>
      constructor
      · intro h
        have hl : s.getLast? ≠ some '\n' := fun hl => written?_broken hi hl h
        refine ⟨hm, fun _ => hl, steady_of_forall (word_of_identifier hi hl).1.ne_backslash⟩
      · exact fun h => written?_identifier hi (h.unbroken hi)
    | false =>
      have hsteady := steady_iff false s
      rw [written?_quoted hm hi]
      constructor
      · intro h
        refine ⟨hm, fun h => absurd (hi.symm.trans h) nofun, hsteady.mpr ?_⟩
        cases hu : unpaired false s with
        | true => simp [hu] at h
        | false => simpa [hu] using h
      · intro h
        obtain ⟨hu, hc⟩ := hsteady.mp h.steady
        rw [hu, hc]
        rfl

theorem quotes_iff : Quotes (quote s) s ↔ Literal s := by
  rw [← written?_eq_text_iff]
  exact ⟨fun h => written?_eq_some.mpr (h []), fun h cs => yields_written h ' ' cs (by decide)⟩

/-- Texts that can be read back are written differently. -/
theorem Literal.quote_inj (hs : Literal s) (ht : Literal t) (h : quote s = quote t) : s = t := by
  have hread : written? s = written? t := by rw [written?, h, written?]
  rw [written?_eq_text_iff.mpr hs, written?_eq_text_iff.mpr ht] at hread
  exact Datum.text.inj (Option.some.inj hread)

end Literal
end Dot

namespace Store
variable {s : Store} {drawing : Drawing} {d : Diagram} {w : Wire} {type : Value}

/-- The label of a wire is the text of the type of its source. -/
theorem wireLabel_eq (h : s.Types d w.source type) (hn : type ≠ .null) :
    s.wireLabel d w = s.text .plain type := by
  obtain ⟨types, htypes, h⟩ := bind_eq_ok.mp h
  obtain ⟨port, hport, h⟩ := bind_eq_ok.mp h
  obtain ⟨i, hi, h⟩ := bind_eq_ok.mp h
  obtain ⟨n, hlen, h⟩ := bind_eq_ok.mp h
  cases hport
  split at h
  · next hrange =>
    simp only [wireLabel, htypes, hi, hlen, h, hrange.1, hrange.2, if_true, bind, Except.bind]
  · cases h

end Store

structure Line where
  label : String
  source : String
  target : String

def lineStyle (p : Palette) : Attributes := (lineAttributes p).tail

def Line.statement (p : Palette) (l : Line) : Statement := .edge l.source l.target (("label", l.label) :: lineStyle p)

/-- The label comes first, and a blank after it. -/
theorem Line.text_statement (p : Palette) (l : Line) : (l.statement p).text =
    "\t" ++ edgeEndText l.source ++ " -> " ++ edgeEndText l.target ++ " [label=" ++ quoteText l.label ++ " " ++
      (lineStyle p).text ++ "]\n" := by
  have hlabel : quoteText "label" = "label" := quoteText_of_identifier (by decide)
  rw [← String.toList_inj]
  simp [Line.statement, Statement.text, Attributes.text, lineStyle, lineAttributes, hlabel]

namespace Store
variable {s : Store} {drawing : Drawing} {d : Diagram} {doc : Document}

structure Traces (s : Store) (drawing : Drawing) (d : Diagram) (w : Wire) (l : Line) : Prop where
  label : (if drawing.showTypes then s.wireLabel d w else .ok "") = .ok l.label
  source : s.connectorName w.source = .ok l.source
  target : s.connectorName w.target = .ok l.target

theorem Traces.of_wireStatement {w : Wire} {st : Statement} (h : s.wireStatement drawing d w = .ok st) :
    ∃ l, s.Traces drawing d w l ∧ st = l.statement drawing.palette := by
  obtain ⟨label, hlabel, h⟩ : ∃ label, (if drawing.showTypes then s.wireLabel d w else .ok "") = .ok label ∧ (do
      let source ← s.connectorName w.source
      let target ← s.connectorName w.target
      return Line.statement drawing.palette ⟨label, source, target⟩) = .ok st := by
    unfold wireStatement at h
    cases hshow : drawing.showTypes <;> rw [hshow] at h
    · exact ⟨"", rfl, h⟩
    · exact bind_eq_ok.mp h
  obtain ⟨source, hsource, h⟩ := bind_eq_ok.mp h
  obtain ⟨target, htarget, h⟩ := bind_eq_ok.mp h
  cases h
  exact ⟨⟨label, source, target⟩, ⟨hlabel, hsource, htarget⟩, rfl⟩

/-- A drawing has a node for each side of the boundary, one for each box, and a line for each wire. -/
theorem draw_eq_ok (h : s.draw drawing d = .ok doc) : ∃ looks lines, List.Forall₂ s.Shows d.boxes looks ∧
    List.Forall₂ (s.Traces drawing d) d.wires lines ∧ doc = ⟨"wiring_diagram", Sketch.header drawing ::
      nodeStatement inputId (drawing.palette.boundaryTable "inputs" 0 d.inputs.length) ::
      nodeStatement outputId (drawing.palette.boundaryTable "outputs" d.outputs.length 0) ::
      looks.map (Look.statement drawing.palette) ++ lines.map (Line.statement drawing.palette)⟩ := by
  obtain ⟨boxes, hboxes, h⟩ := bind_eq_ok.mp h
  obtain ⟨wires, hwires, h⟩ := bind_eq_ok.mp h
  obtain ⟨looks, hlooks, rfl⟩ := exists_of_mapM (fun e _ _ he => Shows.of_boxStatement he) hboxes
  obtain ⟨lines, hlines, rfl⟩ := exists_of_mapM (fun w _ _ hw => Traces.of_wireStatement hw) hwires
  cases h
  exact ⟨looks, lines, hlooks, hlines, rfl⟩

end Store

/-- The label of a wire whose source has a type is the text of that type, and it is read back as that text if
and only if the text is literal. Types with different literal texts have different labels. -/
theorem labels_read {s : Store} {drawing : Drawing} {d : Diagram} {doc : Document}
    (h : s.draw drawing d = .ok doc) (hshow : drawing.showTypes = true) :
    (∃ front lines, doc.statements = front ++ lines ∧ List.Forall₂ (fun w line => ∀ type,
      s.Types d w.source type → type ≠ .null → ∃ source target text attributes,
        s.connectorName w.source = .ok source ∧ s.connectorName w.target = .ok target ∧
        s.text .plain type = .ok text ∧ line.text = "\t" ++ edgeEndText source ++ " -> " ++ edgeEndText target ++
          " [label=" ++ quoteText text ++ " " ++ attributes ++ "]\n" ∧
        (Quotes (quoteText text).toList text.toList ↔ Literal text.toList)) d.wires lines) ∧
    ∀ t t' : String, Literal t.toList → Literal t'.toList → t ≠ t' → quoteText t ≠ quoteText t' := by
  obtain ⟨looks, lines, -, hlines, rfl⟩ := Store.draw_eq_ok h
  refine ⟨⟨_ :: _ :: _ :: looks.map _, lines.map (Line.statement drawing.palette), rfl, ?_⟩, ?_⟩
  · rw [List.forall₂_map_right_iff]
    refine hlines.imp fun w l hl type htype hn => ?_
    have hlabel := hl.label
    rw [hshow, if_pos rfl, Store.wireLabel_eq htype hn] at hlabel
    refine ⟨l.source, l.target, l.label, _, hl.source, hl.target, hlabel, l.text_statement _, ?_⟩
    rw [toList_quoteText, quotes_iff]
  · intro t t' ht ht' hne heq
    have hquote := congrArg String.toList heq
    rw [toList_quoteText, toList_quoteText] at hquote
    exact hne (String.toList_inj.mp (ht.quote_inj ht' hquote))

/-- A type with a blank in its name, and one that looks like markup. -/
theorem labels_read_labelled : let d := labelled (.object "x y") (.object "<b>")
    (∃ doc, Store.empty.draw .standard d = .ok doc ∧ ∃ line ∈ doc.statements, ∃ attributes,
      line.text = "\t0:\"out.0\" -> 2:\"in.0\" [label=\"x y\" " ++ attributes ++ "]\n") ∧
    Quotes (quoteText "x y").toList "x y".toList ∧ quoteText "x y" ≠ quoteText "x z" := by
  intro d
  have hliteral : ∀ t ∈ ["x y", "x z"], Literal t.toList := fun t ht => by
    rw [← written?_eq_text_iff]
    revert t
    decide
  obtain ⟨doc, hdoc⟩ : ∃ doc, Store.empty.draw .standard d = .ok doc := ⟨_, rfl⟩
  obtain ⟨⟨front, lines, hstatements, hlines⟩, hne⟩ := labels_read hdoc rfl
  obtain ⟨line, rest, hfirst, -, rfl⟩ := List.forall₂_cons_left_iff.mp hlines
  obtain ⟨source, target, text, attributes, hsource, htarget, htext, hline, hquotes⟩ :=
    hfirst (.object "x y") rfl nofun
  cases hsource
  cases htarget
  cases htext
  refine ⟨⟨doc, hdoc, line, by simp [hstatements], attributes, ?_⟩, hquotes.mpr (hliteral _ (by simp)),
    hne _ _ (hliteral _ (by simp)) (hliteral _ (by simp)) (by decide)⟩
  rw [hline]
  rfl

/-- Such a type is taken for markup, and two types whose names differ in a backslash have one label. -/
theorem label_misread : let d := labelled (.object "<b>") (.object "a\"")
    (∃ doc, Store.empty.draw .standard d = .ok doc ∧ ∃ line ∈ doc.statements,
      line.text = "\t0:\"out.0\" -> 2:\"in.0\" [label=<b> " ++ (lineStyle .standard).text ++ "]\n") ∧
    written? "<b>".toList = some (.markup ['b']) ∧ ¬ Quotes (quoteText "<b>").toList "<b>".toList ∧
    quoteText "a\"" = quoteText "a\\\"" := by
  intro d
  let line : Line := ⟨"<b>", "0:out.0", "2:in.0"⟩
  have htext : (line.statement .standard).text =
      "\t0:\"out.0\" -> 2:\"in.0\" [label=<b> " ++ (lineStyle .standard).text ++ "]\n" := by
    have hstart : "\t" ++ edgeEndText "0:out.0" ++ " -> " ++ edgeEndText "2:in.0" ++ " [label=" ++ quoteText "<b>" ++
        " " = "\t0:\"out.0\" -> 2:\"in.0\" [label=<b> " := by decide
    exact (line.text_statement .standard).trans (congrArg (· ++ (lineStyle .standard).text ++ "]\n") hstart)
  refine ⟨⟨_, rfl, line.statement .standard, List.mem_of_getElem? (i := 4) rfl, htext⟩, by decide,
    fun h => ?_, by decide⟩
  rw [toList_quoteText, quotes_iff] at h
  exact absurd h.not_markup (by decide)

end StringDiagram
