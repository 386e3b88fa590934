import TemplateMarkup.Proofs.Interior.Arguments
import TemplateMarkup.Proofs.Text.Cutting

/-! # The partner of a parenthesis

Quotes and open parentheses are counted from left to right. The grammar
recognises a pair of parentheses by going down into the pairs inside it, and
it stops where the counter first returns. Parts of a text at which the counter
stays above zero can be put together, and those it also leaves as it met them
are the balanced texts.
-/

namespace TemplateMarkup

open Grammar Recogniser Text

namespace Text

open QuoteState

variable {q : QuoteState} {p r : QuoteState × Nat} {plain : Char → Bool} {s t u : List Char}
  {c : Char} {depth : Nat}

/-- The state of the quotes and the number of open parentheses behind a text. -/
def afterPair (p : QuoteState × Nat) (s : List Char) : QuoteState × Nat :=
  s.foldl nextPair p

@[simp] theorem afterPair_nil (p : QuoteState × Nat) : afterPair p [] = p := rfl

@[simp] theorem afterPair_cons (p : QuoteState × Nat) (c : Char) (s : List Char) :
    afterPair p (c :: s) = afterPair (nextPair p c) s := rfl

theorem afterPair_append (p : QuoteState × Nat) (s t : List Char) :
    afterPair p (s ++ t) = afterPair (afterPair p s) t :=
  List.foldl_append

theorem fst_nextPair (p : QuoteState × Nat) (c : Char) : (nextPair p c).1 = p.1.next c := by
  obtain ⟨q, depth⟩ := p
  cases q <;> rfl

/-- Parentheses make no difference to the quotes. -/
theorem fst_afterPair (p : QuoteState × Nat) (s : List Char) :
    (afterPair p s).1 = p.1.after s := by
  induction s generalizing p with
  | nil => rfl
  | cons c s ih => rw [afterPair_cons, ih, fst_nextPair, after_cons]

/-- Only a closing parenthesis takes the count to zero. -/
theorem eq_of_nextPair_eq_zero (hp : 0 < p.2) (h : (nextPair p c).2 = 0) :
    p = (outside, 1) ∧ c = ')' := by
  obtain ⟨q, depth⟩ := p
  cases q with
  | outside =>
      by_cases hopening : c = '('
      · simp [nextPair, hopening] at h
      · by_cases hclosing : c = ')'
        · have hzero : depth - 1 = 0 := by simpa [nextPair, hclosing] using h
          have hpos : 0 < depth := hp
          have hone : depth = 1 := by omega
          exact ⟨by rw [hone], hclosing⟩
        · simp only [nextPair, hopening, hclosing, if_false] at h
          exact absurd h (Nat.ne_of_gt hp)
  | inside mark => exact absurd h (Nat.ne_of_gt hp)
  | escaped mark => exact absurd h (Nat.ne_of_gt hp)

/-- Whether a text leads from one state to another with a parenthesis open all the way, at both
ends as well. -/
def Stays (p : QuoteState × Nat) (s : List Char) (r : QuoteState × Nat) : Prop :=
  afterPair p s = r ∧ ∀ u, u <+: s → 0 < (afterPair p u).2

theorem stays_nil (hp : 0 < p.2) : Stays p [] p := by
  refine ⟨rfl, fun u hu => ?_⟩
  rw [List.prefix_nil.mp hu]
  exact hp

theorem stays_cons_iff : Stays p (c :: s) r ↔ 0 < p.2 ∧ Stays (nextPair p c) s r := by
  constructor
  · rintro ⟨hend, hall⟩
    exact ⟨hall [] List.nil_prefix, hend,
      fun u hu => hall (c :: u) (List.cons_prefix_cons.mpr ⟨rfl, hu⟩)⟩
  · rintro ⟨hp, hend, hall⟩
    refine ⟨hend, fun u hu => ?_⟩
    cases u with
    | nil => exact hp
    | cons d u =>
        obtain ⟨rfl, hrest⟩ := List.cons_prefix_cons.mp hu
        exact hall u hrest

theorem Stays.append {p' : QuoteState × Nat} (hs : Stays p s r) (ht : Stays r t p') :
    Stays p (s ++ t) p' := by
  induction s generalizing p with
  | nil =>
      obtain rfl : p = r := hs.1
      exact ht
  | cons c s ih =>
      obtain ⟨hp, hrest⟩ := stays_cons_iff.mp hs
      exact stays_cons_iff.mpr ⟨hp, ih hrest⟩

/-- Quotes do not move the count. -/
theorem stays_of_exposed (hdepth : 0 < depth) (hs : q.exposed s = []) :
    Stays (q, depth) s (q.after s, depth) := by
  induction s generalizing q with
  | nil => exact stays_nil hdepth
  | cons c s ih =>
      obtain ⟨hmark, hrest⟩ := exposed_cons_eq_nil_iff.mp hs
      have hnext : nextPair (q, depth) c = (q.next c, depth) :=
        (followsQuotes_listPieces depth).next_eq q c hmark
      rw [stays_cons_iff, hnext]
      exact ⟨hdepth, ih hrest⟩

theorem Balanced.stays (h : Balanced plain s) (hdepth : 0 < depth) :
    Stays (outside, depth) s (outside, depth) := by
  induction h generalizing depth with
  | nil => exact stays_nil hdepth
  | @quoted plain u s hquoted _ ih =>
      have hquote := stays_of_exposed (q := outside) hdepth hquoted.bare_eq
      rw [hquoted.closed] at hquote
      exact hquote.append (ih hdepth)
  | char hmark hparenthesis _ _ ih =>
      rw [stays_cons_iff, nextPair_of_plain hmark hparenthesis]
      exact ⟨hdepth, ih hdepth⟩
  | @pair plain inner s _ _ ihinside ihrest =>
      have hinside := ihinside (Nat.succ_pos depth)
      have hclose : Stays (outside, depth + 1) (')' :: s) (outside, depth) :=
        stays_cons_iff.mpr ⟨Nat.succ_pos depth, ihrest hdepth⟩
      exact stays_cons_iff.mpr ⟨hdepth, hinside.append hclose⟩

/-- Where the count comes down to one with a parenthesis open all the way, every other one has its
partner. -/
theorem Stays.outermost?_isSome (h : Stays (q, depth + 1) s (outside, 1)) :
    (outermost? depth (q.exposed s)).isSome = true := by
  induction s generalizing q depth with
  | nil =>
      obtain ⟨rfl, hdepth⟩ := Prod.mk.inj h.1
      obtain rfl : depth = 0 := Nat.succ.inj hdepth
      rfl
  | cons c s ih =>
      obtain ⟨_, hrest⟩ := stays_cons_iff.mp h
      cases q with
      | inside mark => exact ih hrest
      | escaped mark => exact ih hrest
      | outside =>
          cases hmark : isMark c with
          | true =>
              have hnext : nextPair (outside, depth + 1) c = (inside c, depth + 1) := by
                rw [(followsQuotes_listPieces (depth + 1)).next_eq outside c fun _ => hmark]
                exact congrArg (·, depth + 1) (if_pos hmark)
              rw [hnext] at hrest
              rw [exposed, if_pos hmark]
              exact ih hrest
          | false =>
              rw [exposed, if_neg (by simp [hmark])]
              by_cases hopening : c = '('
              · subst hopening
                rw [outermost?_opening]
                exact ih hrest
              · by_cases hclosing : c = ')'
                · subst hclosing
                  have hdepth : 0 < depth := hrest.2 [] List.nil_prefix
                  obtain ⟨depth, rfl⟩ := Nat.exists_eq_succ_of_ne_zero (Nat.ne_of_gt hdepth)
                  rw [outermost?_closing]
                  exact ih hrest
                · have hparenthesis : isParenthesis c = false := by
                    simp [isParenthesis, hopening, hclosing]
                  rw [nextPair_of_plain hmark hparenthesis] at hrest
                  have htail := ih hrest
                  cases depth with
                  | zero => rwa [outermost?_zero_char hparenthesis, Option.isSome_map]
                  | succ depth => rwa [outermost?_succ_char hparenthesis]

/-- Behind an opening parenthesis the balanced texts are those over which the count stays above
zero and ends as it began. -/
theorem stays_one_iff : Stays (outside, 1) s (outside, 1) ↔ Balanced (fun _ => true) s := by
  constructor
  · intro h
    have hclosed : Closed s := (fst_afterPair (outside, 1) s).symm.trans (congrArg Prod.fst h.1)
    have hcount : (outermost? 0 (bare s)).isSome = true := h.outermost?_isSome
    obtain ⟨u, hu⟩ := Option.isSome_iff_exists.mp hcount
    exact balanced_iff.mpr ⟨hclosed, u, hu, fun _ _ => rfl⟩
  · exact fun h => h.stays Nat.one_pos

/-- A count that reaches zero does so first at a closing parenthesis. -/
theorem exists_return (hp : 0 < p.2) (h : (afterPair p s).2 = 0) :
    ∃ v w, s = v ++ ')' :: w ∧ Stays p v (outside, 1) := by
  induction s generalizing p with
  | nil => exact absurd h (Nat.ne_of_gt hp)
  | cons c s ih =>
      by_cases hzero : (nextPair p c).2 = 0
      · obtain ⟨rfl, rfl⟩ := eq_of_nextPair_eq_zero hp hzero
        exact ⟨[], s, rfl, stays_nil Nat.one_pos⟩
      · obtain ⟨v, w, rfl, hv⟩ := ih (Nat.pos_of_ne_zero hzero) h
        exact ⟨c :: v, w, rfl, stays_cons_iff.mpr ⟨hp, hv⟩⟩

/-- Whether a text begins by opening a parenthesis and ends where the count, which begins at zero
and outside quotes, first returns to that. The count only falls where it is above zero. -/
structure FirstReturn (s : List Char) : Prop where
  opens : s.head? = some '('
  closes : s.getLast? = some ')'
  returns : afterPair (outside, 0) s = (outside, 0)
  positive_before : ∀ u, u <+: s → u ≠ [] → u ≠ s → 0 < (afterPair (outside, 0) u).2

/-- Over a pair of parentheses with a balanced text in it the count returns. -/
theorem Balanced.afterPair_parenthesised (h : Balanced plain s) :
    afterPair (outside, 0) ('(' :: (s ++ [')'])) = (outside, 0) := by
  calc afterPair (outside, 0) ('(' :: (s ++ [')']))
      = afterPair (afterPair (outside, 1) s) [')'] := afterPair_append (outside, 1) s [')']
    _ = (outside, 0) := by rw [(h.stays Nat.one_pos).1]; rfl

theorem firstReturn_iff :
    FirstReturn s ↔ ∃ v, Balanced (fun _ => true) v ∧ s = '(' :: (v ++ [')']) := by
  constructor
  · intro h
    obtain ⟨t, rfl⟩ := List.head?_eq_some_iff.mp h.opens
    have hzero : (afterPair (outside, 1) t).2 = 0 := congrArg Prod.snd h.returns
    obtain ⟨v, w, rfl, hv⟩ := exists_return (p := (outside, 1)) Nat.one_pos hzero
    have hbalanced := stays_one_iff.mp hv
    refine ⟨v, hbalanced, ?_⟩
    cases w with
    | nil => rfl
    | cons d w =>
        have hpositive := h.positive_before ('(' :: (v ++ [')'])) ⟨d :: w, by simp⟩
          (List.cons_ne_nil _ _) (by simp)
        rw [hbalanced.afterPair_parenthesised] at hpositive
        exact absurd hpositive (Nat.lt_irrefl 0)
  · rintro ⟨v, hv, rfl⟩
    refine ⟨rfl, ?_, hv.afterPair_parenthesised, fun u hu hnil hne => ?_⟩
    · rw [← List.cons_append, List.getLast?_concat]
    · cases u with
      | nil => exact absurd rfl hnil
      | cons c u =>
          obtain ⟨rfl, hrest⟩ := List.cons_prefix_cons.mp hu
          rcases List.prefix_concat_iff.mp hrest with rfl | hbefore
          · exact absurd rfl hne
          · exact (hv.stays Nat.one_pos).2 u hbefore

theorem FirstReturn.closed (h : FirstReturn s) : Closed s :=
  (fst_afterPair (outside, 0) s).symm.trans (congrArg Prod.fst h.returns)

/-- Every parenthesis outside quotes has its partner, and nothing stands outside all of them. -/
theorem FirstReturn.outermost?_eq (h : FirstReturn s) : outermost? 0 (bare s) = some [] := by
  obtain ⟨v, hv, rfl⟩ := firstReturn_iff.mp h
  rw [bare_pair hv.closed, outermost?_opening, hv.outermost?_succ, outermost?_closing]
  rfl

/-- Where a quote never closes, a leading part of the text with complete quotes only ends before
it. -/
theorem Closed.prefix_of_openQuote (hu : Closed u) (hs : Closed s) (ht : OpenQuote t)
    (hle : u <+: s ++ t) : u <+: s := by
  obtain ⟨w, hw⟩ := hle
  rcases List.append_eq_append_iff.mp hw with ⟨between, rfl, _⟩ | ⟨between, rfl, hsplit⟩
  · exact List.prefix_append u between
  · obtain ⟨mark, rest, rfl, hmark, hunclosed⟩ := ht
    cases between with
    | nil => simp
    | cons c between =>
        obtain ⟨rfl, rfl⟩ := List.cons.inj hsplit
        have hinside : (inside mark).after between = outside := by
          simpa [Closed, next, hmark] using hs.append_iff.mp hu
        exact absurd hinside (hunclosed.after_prefix_ne (List.prefix_append between w))

end Text

namespace Grammar

open QuoteState

variable {s rest : List Char} {ts : List (ParseTree Rule)}

/-- A pair of parentheses is recognised exactly if a balanced text stands in it. -/
theorem nested_eq_some_iff : nested s = some (ts, rest) ↔
    ∃ v, Balanced (fun _ => true) v ∧ s = '(' :: (v ++ ')' :: rest) ∧
      ts = ('(' :: (v ++ [')'])).map .char := by
  constructor
  · intro h
    obtain ⟨v, hv, htext⟩ := spells_nested s ts rest h
    have hsplit : s = '(' :: (v ++ ')' :: rest) := by
      rw [← lossless_nested s ts rest h, htext]
      simp
    have hread := nested_append hv rest
    rw [← hsplit, h] at hread
    exact ⟨v, hv, hsplit, congrArg Prod.fst (Option.some.inj hread)⟩
  · rintro ⟨v, hv, rfl, rfl⟩
    exact nested_append hv rest

theorem nested_eq_some_iff_firstReturn : nested s = some (ts, rest) ↔
    ∃ u, FirstReturn u ∧ s = u ++ rest ∧ ts = u.map .char := by
  rw [nested_eq_some_iff]
  constructor
  · rintro ⟨v, hv, rfl, rfl⟩
    exact ⟨'(' :: (v ++ [')']), firstReturn_iff.mpr ⟨v, hv, rfl⟩, by simp, rfl⟩
  · rintro ⟨u, hu, rfl, rfl⟩
    obtain ⟨v, hv, rfl⟩ := firstReturn_iff.mp hu
    exact ⟨v, hv, by simp, rfl⟩

/-- A pair of parentheses is recognised exactly if the text opens one and the count from there
returns to zero at some closing parenthesis. -/
theorem isSome_nested_iff : (nested s).isSome = true ↔
    s.head? = some '(' ∧
      ∃ u, u <+: s ∧ u.getLast? = some ')' ∧ afterPair (outside, 0) u = (outside, 0) := by
  constructor
  · intro h
    obtain ⟨⟨ts, rest⟩, hread⟩ := Option.isSome_iff_exists.mp h
    obtain ⟨u, hu, rfl, _⟩ := nested_eq_some_iff_firstReturn.mp hread
    refine ⟨?_, u, List.prefix_append u rest, hu.closes, hu.returns⟩
    rw [List.head?_append, hu.opens]
    rfl
  · rintro ⟨hopens, u, ⟨rest, rfl⟩, hcloses, hreturns⟩
    cases u with
    | nil => cases hcloses
    | cons c u =>
        obtain rfl : c = '(' := Option.some.inj hopens
        have hzero : (afterPair (outside, 1) u).2 = 0 := congrArg Prod.snd hreturns
        obtain ⟨v, w, rfl, hv⟩ := exists_return (p := (outside, 1)) Nat.one_pos hzero
        have hread := nested_append (stays_one_iff.mp hv) (w ++ rest)
        rw [List.cons_append, List.append_assoc, List.cons_append, hread]
        rfl

/-- The grammar finds the partner of a parenthesis. It recognises a pair of them exactly if the
text begins with an opening one and the count over the text returns to zero and outside quotes at
some closing one, and it reads up to the first place where this happens. A quote that never closes
is not reached by then, all quotes read are complete, and every parenthesis outside them has its
partner. -/
theorem nested_finds_partner (s : List Char) :
    ((nested s).isSome = true ↔ s.head? = some '(' ∧
      ∃ u, u <+: s ∧ u.getLast? = some ')' ∧ afterPair (outside, 0) u = (outside, 0)) ∧
    (∀ ts rest, nested s = some (ts, rest) ↔
      ∃ u, FirstReturn u ∧ s = u ++ rest ∧ ts = u.map .char) ∧
    ∀ u, FirstReturn u → u <+: s →
      Closed u ∧ outermost? 0 (bare u) = some [] ∧
        ∀ before quote, s = before ++ quote → Closed before → OpenQuote quote → u <+: before := by
  refine ⟨isSome_nested_iff, fun ts rest => nested_eq_some_iff_firstReturn,
    fun u hu hle => ⟨hu.closed, hu.outermost?_eq, ?_⟩⟩
  rintro before quote rfl hbefore hquote
  exact hu.closed.prefix_of_openQuote hbefore hquote hle

/-- A parenthesis in a quote has no partner, and behind an open quote there is none. -/
example : (nested ['(', '\'', ')', '\'', ')', 'a']).map Prod.snd = some ['a'] ∧
    (nested ['(', '"', ')']).map Prod.snd = none := by decide

end Grammar

end TemplateMarkup
