import TemplateMarkup.Lexeme
import TemplateMarkup.Proofs.Grammar.Quoted
import TemplateMarkup.Proofs.Outcome
import TemplateMarkup.Proofs.Text.OpeningMark

/-! # Lexemes without open quotes

A tree is kept as a lexeme exactly if no open quote stands directly below it.
Offsets matter to errors only, so that a row of lexemes is known from the
trees alone. Where the open quotes of trees and texts agree, a lexeme is known
from its text and offset.
-/

namespace TemplateMarkup

open Grammar Text Outcome

namespace Grammar.ParseTree

variable {ρ : Type}

/-- Where a rule reads to the end, what stands below its node makes up all of the text. -/
theorem textAll_of_parts? {rule : ρ} {p : Recogniser ρ} (hp : (p.node rule).Lossless)
    (hend : (p.node rule).Exhausts) {s : List Char} {ts : List (ParseTree ρ)}
    (h : (p.node rule).parts? s = some ts) : textAll ts = s := by
  obtain ⟨found, hread, rfl⟩ := Option.map_eq_some_iff.mp h
  have hwhole := hp s found.1 found.2 hread
  rw [hend s found.1 found.2 hread, List.append_nil] at hwhole
  obtain ⟨below, _, rfl⟩ := Option.map_eq_some_iff.mp hread
  simpa [textAll, text, children] using hwhole

variable [DecidableEq ρ]

theorem map_snd_nodesOf (rule : ρ) (offset : Nat) (ts : List (ParseTree ρ)) :
    (nodesOf rule offset ts).map Prod.snd = ts.filter (isNode rule) := by
  have h := List.filter_map (f := Prod.snd) (l := placed offset ts) (p := isNode rule)
  rw [placed_map_snd] at h
  exact h.symm

theorem nodesOf_eq_nil_iff {rule : ρ} {offset : Nat} {ts : List (ParseTree ρ)} :
    nodesOf rule offset ts = [] ↔ ∀ t ∈ ts, t.isNode rule = false := by
  rw [← List.map_eq_nil_iff (f := Prod.snd), map_snd_nodesOf, List.filter_eq_nil_iff]
  simp

theorem nodesOf_append (rule : ρ) (offset : Nat) (ts us : List (ParseTree ρ)) :
    nodesOf rule offset (ts ++ us) =
      nodesOf rule offset ts ++ nodesOf rule (offset + byteSize (textAll ts)) us := by
  rw [nodesOf, placed_append, List.filter_append]
  rfl

theorem mem_filter_of_mem_nodesOf {rule : ρ} {offset : Nat} {ts : List (ParseTree ρ)}
    {entry : Nat × ParseTree ρ} (h : entry ∈ nodesOf rule offset ts) :
    entry.2 ∈ ts.filter (isNode rule) := by
  rw [← map_snd_nodesOf rule offset ts]
  exact List.mem_map_of_mem h

end Grammar.ParseTree

namespace Grammar

theorem filter_map_char (rule : Rule) (s : List Char) :
    (s.map .char).filter (ParseTree.isNode rule) = [] := by
  rw [List.filter_map]
  simp [Function.comp_def, ParseTree.isNode]

theorem find?_map_char_append (rule : Rule) (s : List Char) (ts : List (ParseTree Rule)) :
    (s.map ParseTree.char ++ ts).find? (ParseTree.isNode rule) =
      ts.find? (ParseTree.isNode rule) := by
  induction s with
  | nil => rfl
  | cons c s ih => exact ih

end Grammar

theorem lexeme_eq_ok_iff {base offset : Nat} {t : ParseTree Rule} {w : List Char} :
    lexeme base offset t = .ok w ↔ Unbroken t.children ∧ w = t.text := by
  have hunbroken : ParseTree.nodesOf .openQuote offset t.children = [] ↔ Unbroken t.children :=
    ParseTree.nodesOf_eq_nil_iff
  rw [lexeme, ← hunbroken]
  split
  · rename_i hnil
    simp [hnil, eq_comm]
  · rename_i hcons
    simp [hcons]

/-- A row of lexemes consists of the texts of its trees, none of which holds an open quote. -/
theorem map_lexeme_iff {base : Nat} {found : List (Nat × ParseTree Rule)}
    {ws : List (List Char)} :
    (found.map fun entry => lexeme base entry.1 entry.2) = ws.map .ok ↔
      (∀ t ∈ found.map Prod.snd, Unbroken t.children) ∧
        ws = (found.map Prod.snd).map ParseTree.text := by
  induction found generalizing ws with
  | nil =>
      rw [List.map_nil, eq_comm, List.map_eq_nil_iff]
      simp
  | cons entry found ih =>
      cases ws with
      | nil => simp
      | cons w ws =>
          simp only [List.map_cons, List.cons.injEq, lexeme_eq_ok_iff, ih, List.forall_mem_cons]
          constructor
          · rintro ⟨⟨ht, hw⟩, hts, hws⟩
            exact ⟨⟨ht, hts⟩, hw, hws⟩
          · rintro ⟨⟨ht, hts⟩, hw, hws⟩
            exact ⟨⟨ht, hw⟩, hts, hws⟩

/-- A text that begins at an offset, as a lexeme: it is kept if its quotes close, and otherwise
refused at its open quote. -/
def Text.lexemeAt (base : Nat) (s : List Char) : Except TemplateError (List Char) :=
  match openQuoteAt? s with
  | none => .ok s
  | some i => .error (.unterminatedQuote (base + i))

/-- Whether a tree is kept or refused as its text is. -/
def Grammar.Verbatim (t : ParseTree Rule) : Prop :=
  ∀ base offset, lexeme base offset t = lexemeAt (base + offset) t.text

theorem verbatim_of_closed {s : List Char} (h : Closed s) (rule : Rule) :
    Verbatim (.node rule (s.map .char)) := by
  intro base offset
  have htext : (ParseTree.node rule (s.map .char)).text = s := by simp [ParseTree.text]
  rw [htext, lexemeAt, openQuoteAt?_of_closed h, lexeme_eq_ok_iff]
  exact ⟨unbroken_map_char s, htext.symm⟩

/-- Behind complete quotes an open quote is refused at its mark. -/
theorem lexeme_brokenTrees (base offset : Nat) (rule : Rule) (v q : List Char) :
    lexeme base offset (.node rule (brokenTrees v q)) =
      .error (.unterminatedQuote (base + (offset + byteSize v))) := by
  have hplain : ParseTree.nodesOf Rule.openQuote offset (v.map .char) = [] :=
    ParseTree.nodesOf_eq_nil_iff.mpr (unbroken_map_char v)
  rw [lexeme, ParseTree.children, brokenTrees, ParseTree.nodesOf_append, hplain,
    ParseTree.textAll_map_char]
  rfl

theorem verbatim_of_openQuote {v q : List Char} (hv : Closed v) (hq : OpenQuote q) (rule : Rule) :
    Verbatim (.node rule (brokenTrees v q)) := by
  intro base offset
  have htext : (ParseTree.node rule (brokenTrees v q)).text = v ++ q := by
    simp [ParseTree.text, ParseTree.textAll, brokenTrees]
  calc lexeme base offset (.node rule (brokenTrees v q))
      = .error (.unterminatedQuote (base + (offset + byteSize v))) :=
        lexeme_brokenTrees base offset rule v q
    _ = lexemeAt (base + offset) (v ++ q) := by
        rw [lexemeAt, openQuoteAt?_of_openQuote hv hq, ← Nat.add_assoc]
    _ = _ := by rw [htext]

/-- The words of a tag are the texts of the words in its tree, none with an open quote. -/
theorem tagWords_eq_ok_iff {interior : List Char} {offset : Nat} {ts : List (ParseTree Rule)}
    {ws : List (List Char)} (h : Recogniser.parts? tagInterior interior = some ts) :
    tagWords interior offset = .ok ws ↔
      (∀ t ∈ ts.filter (ParseTree.isNode .tagWord), Unbroken t.children) ∧
        ws = (ts.filter (ParseTree.isNode .tagWord)).map ParseTree.text := by
  simp only [tagWords, h]
  rw [mapM_eq_ok_iff, map_lexeme_iff, ParseTree.map_snd_nodesOf]

end TemplateMarkup
