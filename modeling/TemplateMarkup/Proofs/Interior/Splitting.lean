import TemplateMarkup.Proofs.Interior.OpenQuotes
import TemplateMarkup.Proofs.Text.OpeningMark

/-! # Splitting a tag into words

One pass of the quote automaton decides what a tag holds. If it ends inside a
quote, the tag is refused at the mark that opens it. Otherwise the tag has one
division into words and gaps, and its words are read. They are read again from
any text that joins them with gaps.
-/

namespace TemplateMarkup

open Text

namespace Text

/-- Whether a text consists of words with gaps between them, and possibly gaps at both ends. A gap
inside a quote separates nothing, since the quotes of every word close. -/
def Divided (s : List Char) (ws : List (List Char)) : Prop :=
  ∃ g t, s = g ++ t ∧ (∀ c ∈ g, isGap c = true) ∧ Spaced t ws

/-- Words with a text between each two of them, which may differ from place to place. -/
def joinWith (between : Nat → List Char) : List (List Char) → List Char
  | [] => []
  | [w] => w
  | w :: v :: ws => w ++ (between 0 ++ joinWith (fun i => between (i + 1)) (v :: ws))

theorem spaced_joinWith {ws : List (List Char)} (hws : ∀ w ∈ ws, Word w)
    {between : Nat → List Char} (hgap : ∀ i, between i ≠ [] ∧ ∀ c ∈ between i, isGap c = true) :
    Spaced (joinWith between ws) ws := by
  induction ws generalizing between with
  | nil => exact .nil
  | cons w ws ih =>
      have hw := hws w (List.mem_cons_self ..)
      cases ws with
      | nil =>
          have hlast := Spaced.cons hw (List.forall_mem_nil _) (fun _ => rfl) .nil
          rwa [List.append_nil, List.append_nil] at hlast
      | cons v ws =>
          apply Spaced.cons hw (hgap 0).2
          · exact fun h => absurd h (hgap 0).1
          · apply ih
            · exact fun u hu => hws u (List.mem_cons_of_mem w hu)
            · exact fun i => hgap (i + 1)

/-- A word cannot run from one word of a text over the gaps behind it. -/
theorem Word.eq_nil_of_append {u b : List Char} (h : Word (u ++ b)) (hu : Closed u)
    (hb : ∀ c ∈ b.head?, isGap c = true) : b = [] := by
  cases b with
  | nil => rfl
  | cons c b =>
      have hgap : isGap c = true := hb c rfl
      have hbare : c ∈ bare (u ++ c :: b) := by
        rw [hu.bare_append, bare_cons (isMark_of_isGap hgap)]
        exact List.mem_append_right _ (List.mem_cons_self ..)
      rw [h.solid c hbare] at hgap
      cases hgap

/-- A word that stands in a text outside its quotes stands in one of the words of the text. -/
theorem Spaced.exists_infix {s p v r : List Char} {ws : List (List Char)} (h : Spaced s ws)
    (hsplit : s = p ++ (v ++ r)) (hp : Closed p) (hv : Word v) : ∃ w ∈ ws, v <:+: w := by
  induction h generalizing p with
  | nil =>
      obtain ⟨-, hvr⟩ := List.append_eq_nil_iff.mp hsplit.symm
      exact absurd (List.append_eq_nil_iff.mp hvr).1 hv.ne_nil
  | @cons w g s ws word gaps apart _ ih =>
      -- either the word begins in the first word of the text, or behind it
      rcases List.append_eq_append_iff.mp hsplit with ⟨p, rfl, hrest⟩ | ⟨u, rfl, hrest⟩
      · have hp : Closed p := word.closed.append_iff.mp hp
        rcases List.append_eq_append_iff.mp hrest with ⟨p, rfl, hs⟩ | ⟨b, rfl, hs⟩
        · obtain ⟨w', hmem, hinfix⟩ := ih hs ((closed_of_gaps gaps).append_iff.mp hp)
          exact ⟨w', List.mem_cons_of_mem w hmem, hinfix⟩
        · cases b with
          | nil =>
              obtain ⟨w', hmem, hinfix⟩ := ih (p := []) hs.symm closed_nil
              exact ⟨w', List.mem_cons_of_mem w hmem, hinfix⟩
          | cons c b =>
              have hhead := hv.head_not_gap r
              rw [hs, List.cons_append, List.head?_cons, Option.any_some,
                gaps c (List.mem_append_right p (List.mem_cons_self ..))] at hhead
              cases hhead
      · have hu : Closed u := hp.append_iff.mp word.closed
        refine ⟨p ++ u, List.mem_cons_self .., ?_⟩
        rcases List.append_eq_append_iff.mp hrest with ⟨b, rfl, -⟩ | ⟨b, rfl, hb⟩
        · exact ⟨p, b, List.append_assoc p v b⟩
        · have hnil : b = [] := by
            apply hv.eq_nil_of_append hu
            intro c hc
            cases b with
            | nil => cases hc
            | cons d b => exact Grammar.head_gap_of_apart gaps apart c (by rw [hb]; exact hc)
          rw [hnil, List.append_nil]
          exact (List.suffix_append p u).isInfix

end Text

theorem tagWords_eq_ok_iff_divided {interior : List Char} {offset : Nat} {ws : List (List Char)} :
    tagWords interior offset = .ok ws ↔ Divided interior ws :=
  tagWords_eq_ok_iff_spaced

/-- A tag is split as one pass of the quote automaton splits it. If the pass ends inside a quote,
that quote is reported where it begins. Otherwise the interior has exactly one division into words
and gaps, its words are the result, whatever holds no gap outside quotes stays in one of them, and
they are the words of every text that joins them with gaps. -/
theorem tagWords_of_automaton (interior : List Char) (offset : Nat) :
    match openQuoteAt? interior with
    | some i => tagWords interior offset = .error (.unterminatedQuote (offset + 2 + i))
    | none => ∃ ws, tagWords interior offset = .ok ws ∧
        (∀ vs, Divided interior vs ↔ vs = ws) ∧
        (∀ p v r, interior = p ++ (v ++ r) → Closed p → Word v → ∃ w ∈ ws, v <:+: w) ∧
        ∀ between : Nat → List Char,
          (∀ i, between i ≠ [] ∧ ∀ c ∈ between i, isGap c = true) →
          ∀ place, tagWords (joinWith between ws) place = .ok ws := by
  cases hopen : openQuoteAt? interior with
  | some i =>
      obtain ⟨w, q, rfl, hw, hq, rfl⟩ := openQuoteAt?_eq_some_iff.mp hopen
      exact tagWords_of_openQuote hw hq offset
  | none =>
      have hclosed := openQuoteAt?_eq_none_iff.mp hopen
      obtain ⟨g, s, ws, rfl, hg, hws⟩ := exists_spaced_interior hclosed
      have hread := tagWords_of_spaced hg hws offset
      refine ⟨ws, hread, fun vs => ?_, fun p v r hsplit hp hv => ?_, fun between hgap place => ?_⟩
      · calc Divided (g ++ s) vs
            ↔ tagWords (g ++ s) offset = .ok vs := tagWords_eq_ok_iff_divided.symm
          _ ↔ vs = ws := by rw [hread, Except.ok.injEq, eq_comm]
      · rcases List.append_eq_append_iff.mp hsplit with ⟨p, rfl, hs⟩ | ⟨b, rfl, hs⟩
        · exact hws.exists_infix hs ((closed_of_gaps hg).append_iff.mp hp) hv
        · -- a word does not begin inside the gaps at the front
          cases b with
          | nil => exact hws.exists_infix (p := []) hs.symm closed_nil hv
          | cons c b =>
              have hhead := hv.head_not_gap r
              rw [hs, List.cons_append, List.head?_cons, Option.any_some,
                hg c (List.mem_append_right p (List.mem_cons_self ..))] at hhead
              cases hhead
      · exact tagWords_of_spaced (List.forall_mem_nil _) (spaced_joinWith hws.word hgap) place

end TemplateMarkup
