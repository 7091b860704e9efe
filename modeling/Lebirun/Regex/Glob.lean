import Mathlib
import Lebirun.Regex.Fnmatch

namespace Lebirun.Regex
set_option autoImplicit true

section Language

/-- What a pattern matches from a position to the end of the string. -/
inductive Lang (fl : FnFlags) (t : List CChar) : List (Option Elem) → Nat → Prop
  | done : Lang fl t [] t.length
  | stop : Lang fl t ts i → Lang fl t (none :: ts) i
  | swallow : i < t.length → Free fl t i → Lang fl t (none :: ts) (i + 1) → Lang fl t (none :: ts) i
  | one : i < t.length → e.takes fl fl.period t i → Lang fl t ts (i + 1) → Lang fl t (some e :: ts) i

/-- The elements match one after the other from a position on. -/
def Fits (fl : FnFlags) (t : List CChar) : List Elem → Nat → Prop
  | [], _ => True
  | e :: es, i => i < t.length ∧ e.takes fl fl.period t i ∧ Fits fl t es (i + 1)

variable {fl : FnFlags} {t : List CChar} {e : Elem} {es : List Elem} {ts : List (Option Elem)} {i j s x : Nat}

theorem lang_one : Lang fl t (some e :: ts) i ↔ i < t.length ∧ e.takes fl fl.period t i ∧ Lang fl t ts (i + 1) := by
  constructor
  · intro h
    cases h with
    | one hi he h => exact ⟨hi, he, h⟩
  · intro h
    exact .one h.1 h.2.1 h.2.2

theorem lang_star : Lang fl t (none :: ts) i ↔
    Lang fl t ts i ∨ i < t.length ∧ Free fl t i ∧ Lang fl t (none :: ts) (i + 1) := by
  constructor
  · intro h
    cases h with
    | stop h => exact Or.inl h
    | swallow hi hf h => exact Or.inr ⟨hi, hf, h⟩
  · intro h
    obtain h | ⟨hi, hf, h⟩ := h
    · exact .stop h
    · exact .swallow hi hf h

/-- Where a star stops, having swallowed what is before. -/
theorem Lang.stops (h : Lang fl t (none :: ts) i) :
    ∃ j, i ≤ j ∧ (∀ x, i ≤ x → x < j → Free fl t x) ∧ Lang fl t ts j := by
  generalize hus : none :: ts = us at h
  induction h with
  | done => cases hus
  | one => cases hus
  | stop h =>
    cases hus
    exact ⟨_, le_rfl, fun x hx hlt => absurd hlt (not_lt.mpr hx), h⟩
  | @swallow i _ hi hf h ih =>
    obtain ⟨j, hij, hfree, hj⟩ := ih hus
    refine ⟨j, by omega, ?_, hj⟩
    intro x hx hlt
    obtain rfl | hne := eq_or_ne x i
    · exact hf
    · exact hfree x (by omega) hlt

theorem lang_from (hfree : ∀ x, i ≤ x → x < j → Free fl t x) (hij : i ≤ j) (hj : j ≤ t.length)
    (h : Lang fl t (none :: ts) j) : Lang fl t (none :: ts) i := by
  induction hij with
  | refl => exact h
  | @step j hij ih =>
    apply ih
    · intro x hx hlt
      exact hfree x hx (by omega)
    · omega
    · exact .swallow (by omega) (hfree j hij (Nat.lt_succ_self j)) h

theorem Lang.le (h : Lang fl t ts i) : i ≤ t.length := by
  induction h with
  | done => exact le_rfl
  | stop _ ih => exact ih
  | swallow hi => exact hi.le
  | one hi => exact hi.le

theorem lang_append : Lang fl t (es.map some ++ ts) i ↔ Fits fl t es i ∧ Lang fl t ts (i + es.length) := by
  induction es generalizing i with
  | nil => simp [Fits]
  | cons e es ih =>
    have hlen : i + (e :: es).length = i + 1 + es.length := by
      rw [List.length_cons]
      omega
    rw [List.map_cons, List.cons_append, lang_one, ih, hlen, Fits]
    simp only [and_assoc]

theorem Fits.snoc (h : Fits fl t es i) (hs : i + es.length < t.length)
    (he : e.takes fl fl.period t (i + es.length)) : Fits fl t (es ++ [e]) i := by
  induction es generalizing i with
  | nil => exact ⟨hs, he, trivial⟩
  | cons d es ih =>
    have hlen : i + (d :: es).length = i + 1 + es.length := by
      rw [List.length_cons]
      omega
    rw [hlen] at hs he
    exact ⟨h.1, h.2.1, ih h.2.2 hs he⟩

theorem fold_slash {c : CChar} (h : fl.fold c = fl.fold (chr '/')) : c = chr '/' := by
  have hslash : charTolower (chr '/') = chr '/' := by decide
  rw [FnFlags.fold, FnFlags.fold] at h
  split at h
  · rw [hslash, charTolower] at h
    split at h
    · rename_i hupper
      have hA : chr 'A' = 65 := rfl
      have h47 : chr '/' = 47 := rfl
      rw [hA] at hupper
      rw [h47] at h
      exfalso
      have hbig := hupper.1
      change c + 32 = 47 at h
      have hc : c = 15 := by linarith only [h]
      rw [hc] at hbig
      exact absurd hbig (by decide)
    · exact h
  · exact h

/-- Only a literal slash matches a slash, and it matches nothing else. -/
theorem takes_slash (hp : fl.pathname = true) {q r : Bool} (hi : e.takes fl q t i) (hj : e.takes fl r t j)
    (hslash : charAt t i = chr '/') : charAt t j = chr '/' := by
  have hnot : ¬Free { fl with period := q } t i := fun h => h.1 ⟨hp, hslash⟩
  cases e with
  | any => exact absurd (hi.1.resolve_left Bool.false_ne_true) hnot
  | bracket negate items => exact absurd (hi.1.resolve_left Bool.false_ne_true) hnot
  | lit c =>
    have hci : fl.fold c = fl.fold (charAt t i) := of_decide_eq_true hi.2
    have hcj : fl.fold c = fl.fold (charAt t j) := of_decide_eq_true hj.2
    rw [hslash] at hci
    rw [fold_slash hci] at hcj
    exact fold_slash hcj.symm

theorem Fits.slash (hp : fl.pathname = true) (hi : Fits fl t es i) (hj : Fits fl t es j) (hx : x < es.length)
    (hslash : charAt t (i + x) = chr '/') : charAt t (j + x) = chr '/' := by
  induction es generalizing i j x with
  | nil => exact absurd hx (Nat.not_lt_zero x)
  | cons e es ih =>
    cases x with
    | zero => exact takes_slash hp hi.2.1 hj.2.1 hslash
    | succ x =>
      have hlt : x < es.length := Nat.lt_of_succ_lt_succ hx
      rw [show j + (x + 1) = j + 1 + x by omega]
      apply ih hi.2.2 hj.2.2 hlt
      rw [← hslash]
      congr 1
      omega

/-- Elements that match in two places, with nothing between that stops a star, stand over no slash at all. -/
theorem no_slash (hp : fl.pathname = true) (hi : Fits fl t es i) (hj : Fits fl t es j)
    (hij : i < j) (hfree : ∀ x, i ≤ x → x < j → Free fl t x) (hx : i ≤ x) (hlt : x < j + es.length) :
    charAt t x ≠ chr '/' := by
  induction x using Nat.strong_induction_on with
  | h x ih =>
    intro hslash
    obtain hbefore | hafter := lt_or_ge x j
    · exact (hfree x hx hbefore).1 ⟨hp, hslash⟩
    · obtain ⟨k, rfl⟩ := Nat.exists_eq_add_of_le hafter
      have hk : k < es.length := by omega
      exact ih (i + k) (by omega) (by omega) (by omega) (hj.slash hp hi hk hslash)

/-- In front of a character no star may swallow the elements match at one place only. -/
theorem Lang.pinned (hi : Fits fl t es i) (hs : s = i + es.length) (hstop : ¬Free fl t s)
    (h : Lang fl t (none :: (es.map some ++ ts)) i) : Lang fl t ts s := by
  obtain ⟨j, hij, hfree, hj⟩ := h.stops
  rw [lang_append] at hj
  obtain rfl | hlt := hij.eq_or_lt
  · rw [hs]
    exact hj.2
  exfalso
  have hjs : j ≤ s := by
    by_contra hgt
    exact hstop (hfree s (by omega) (by omega))
  apply hstop
  refine ⟨fun hslash => ?_, fun hdot => ?_⟩
  · exact no_slash hslash.1 hi hj.1 hlt hfree (by omega) (by omega) hslash.2
  · have hlead := hdot.2.2
    rw [leading, Bool.or_eq_true, Bool.and_eq_true, decide_eq_true_iff, decide_eq_true_iff] at hlead
    obtain hzero | hslash := hlead
    · omega
    · exact no_slash hslash.1 hi hj.1 hlt hfree (x := s - 1) (by omega) (by omega) hslash.2

/-- Of the places where the elements between two stars match the first will do. -/
theorem lang_advance (hi : Fits fl t es i) :
    Lang fl t (none :: (es.map some ++ none :: ts)) i ↔ Lang fl t (none :: ts) (i + es.length) := by
  constructor
  · intro h
    obtain ⟨j, hij, hfree, hj⟩ := h.stops
    rw [lang_append] at hj
    obtain rfl | hlt := hij.eq_or_lt
    · exact hj.2
    refine lang_from ?_ (by omega) hj.2.le hj.2
    intro x hx hxj
    by_cases hbefore : x < j
    · exact hfree x (by omega) hbefore
    refine ⟨fun hslash => ?_, fun hdot => ?_⟩
    · exact no_slash hslash.1 hi hj.1 hlt hfree (by omega) hxj hslash.2
    · have hlead := hdot.2.2
      rw [leading, Bool.or_eq_true, Bool.and_eq_true, decide_eq_true_iff, decide_eq_true_iff] at hlead
      obtain hzero | hslash := hlead
      · omega
      · exact no_slash hslash.1 hi hj.1 hlt hfree (x := x - 1) (by omega) (by omega) hslash.2
  · intro h
    exact .stop (lang_append.mpr ⟨hi, h⟩)

end Language

section Runs

variable {fl : FnFlags} {t : List CChar} {ts : List (Option Elem)} {st st' : FnState} {L : Prop} {p q : List CChar}
  {period r : Bool} {i s : Nat}

theorem lang_stars : Lang fl t (none :: none :: ts) i ↔ Lang fl t (none :: ts) i := by
  constructor
  · intro h
    obtain ⟨j, hij, hfree, hj⟩ := h.stops
    exact lang_from hfree hij hj.le hj
  · intro h
    exact .stop h

theorem lang_skipStars (p : List CChar) : Lang fl t (none :: tokens fl p) i ↔ Lang fl t (none :: tokens fl (skipStars p)) i := by
  induction p with
  | nil => rfl
  | cons c p ih =>
    rw [skipStars, List.dropWhile_cons]
    split
    · rename_i hc
      rw [tokens, if_pos (of_decide_eq_true hc), lang_stars, ih]
      rfl
    · rfl

theorem lang_head_star (fl : FnFlags) (hp : p.head? = some (chr '*')) :
    ∃ q, tokens fl p = none :: tokens fl q ∧ skipStars p = skipStars q ∧ q.length < p.length := by
  cases p with
  | nil => cases hp
  | cons c q =>
    obtain rfl : c = chr '*' := Option.some.inj hp
    refine ⟨q, by rw [tokens, if_pos rfl], ?_, Nat.lt_succ_self _⟩
    rw [skipStars, List.dropWhile_cons, if_pos (decide_eq_true rfl)]
    rfl

theorem skipStars_length (p : List CChar) : (skipStars p).length ≤ p.length :=
  (List.dropWhile_suffix _).length_le

/-- At the end of the string only stars may be left. -/
theorem lang_end (fl : FnFlags) (t p : List CChar) : Lang fl t (tokens fl p) t.length ↔ skipStars p = [] := by
  induction p with
  | nil =>
    rw [tokens]
    exact ⟨fun _ => rfl, fun _ => .done⟩
  | cons c p ih =>
    rw [tokens, skipStars, List.dropWhile_cons]
    by_cases hc : c = chr '*'
    · rw [if_pos hc, if_pos (decide_eq_true hc), lang_star, ih]
      constructor
      · intro h
        exact h.resolve_right fun h => absurd h.1 (lt_irrefl _)
      · intro h
        exact Or.inl h
    · rw [if_neg hc, if_neg (by simpa using hc), lang_one]
      constructor
      · intro h
        exact absurd h.1 (lt_irrefl _)
      · intro h
        cases h

theorem one_some (hp : p.head? ≠ some (chr '*')) (h : fnmatchOne fl period t p s = some q) :
    ∃ e : Elem, tokens fl p = some e :: tokens fl q ∧ e.takes fl period t s ∧ q.length < p.length := by
  cases p with
  | nil => cases h
  | cons c p =>
    obtain ⟨htakes, heq⟩ | ⟨_, heq⟩ := fnmatchOne_eq fl period t c p s
    · rw [heq] at h
      obtain rfl := Option.some.inj h
      refine ⟨_, tokens_cons fun hc => hp (congrArg some hc), htakes, ?_⟩
      rw [List.length_cons]
      exact Nat.lt_succ_of_le (splitElem_length fl c p)
    · rw [heq] at h
      cases h

theorem Elem.takes_period {e : Elem} (hperiod : period = true → fl.period = true)
    (h : e.takes fl fl.period t s) : e.takes fl period t s := by
  refine ⟨h.1.imp_right fun hfree => ⟨hfree.1, fun hdot => ?_⟩, h.2⟩
  exact hfree.2 ⟨hperiod hdot.1, hdot.2⟩

theorem one_none (hp : p.head? ≠ some (chr '*')) (hperiod : period = true → fl.period = true)
    (h : fnmatchOne fl period t p s = none) (hs : s < t.length) : ¬Lang fl t (tokens fl p) s := by
  intro hlang
  cases p with
  | nil =>
    rw [tokens] at hlang
    cases hlang
    exact lt_irrefl _ hs
  | cons c p =>
    rw [tokens_cons fun hc => hp (congrArg some hc), lang_one] at hlang
    obtain ⟨_, heq⟩ | ⟨hnot, _⟩ := fnmatchOne_eq fl period t c p s
    · rw [heq] at h
      cases h
    · exact hnot (Elem.takes_period hperiod hlang.2.1)

/-- The step the restrictions of the flags do not allow: a last star is given the rest of the string although it
begins with a character no star may swallow; an element takes a leading period because a star has come before;
the star of the retry swallows a slash or a leading period. -/
def Wrong (fl : FnFlags) (t : List CChar) (st : FnState) : Prop :=
  st.s < t.length ∧
    if st.p.head? = some (chr '*') then skipStars st.p = [] ∧ ¬Free fl t st.s
    else
      match fnmatchOne fl st.period t st.p st.s with
      | some _ => fnmatchOne fl fl.period t st.p st.s = none
      | none => ∃ starP starS, st.star = some (starP, starS) ∧
          ¬(fl.pathname = true ∧ charAt t st.s = chr '/') ∧ ¬Free fl t starS

/-- `L` is what the loop has yet to decide. -/
def Tracks (fl : FnFlags) (t : List CChar) (L : Prop) (st : FnState) : Prop :=
  st.s ≤ t.length ∧ (st.period = true → fl.period = true) ∧
    match st.star with
    | none => L ↔ Lang fl t (tokens fl st.p) st.s
    | some (starP, starS) => ∃ es : List Elem, tokens fl starP = es.map some ++ tokens fl st.p ∧
        Fits fl t es starS ∧ st.s = starS + es.length ∧ (L ↔ Lang fl t (none :: tokens fl starP) starS)

theorem Tracks.pinned (h : Tracks fl t L st) (hstop : ¬Free fl t st.s) (hL : L) : Lang fl t (tokens fl st.p) st.s := by
  obtain ⟨_, _, hstar⟩ := h
  cases hst : st.star with
  | none =>
    rw [hst] at hstar
    exact hstar.mp hL
  | some star =>
    rw [hst] at hstar
    obtain ⟨es, htok, hfits, hs, hiff⟩ := hstar
    have hlang := hiff.mp hL
    rw [htok] at hlang
    exact hlang.pinned hfits hs hstop

theorem Tracks.at_star (h : Tracks fl t L st) (hp : st.p.head? = some (chr '*')) :
    L ↔ Lang fl t (none :: tokens fl (skipStars st.p)) st.s := by
  obtain ⟨q, htokq, hskip, _⟩ := lang_head_star fl hp
  obtain ⟨_, _, hstar⟩ := h
  rw [hskip, ← lang_skipStars]
  cases hst : st.star with
  | none =>
    rw [hst] at hstar
    dsimp only at hstar
    rw [hstar, htokq]
  | some star =>
    rw [hst] at hstar
    obtain ⟨es, htok, hfits, hs, hiff⟩ := hstar
    rw [hiff, htok, htokq, lang_advance hfits, hs]

theorem Tracks.at_end (h : Tracks fl t L st) (hs : t.length ≤ st.s) : L ↔ skipStars st.p = [] := by
  obtain ⟨hle, _, hstar⟩ := h
  have hend : st.s = t.length := le_antisymm hle hs
  rw [← lang_end fl t, ← hend]
  cases hst : st.star with
  | none =>
    rw [hst] at hstar
    exact hstar
  | some star =>
    rw [hst] at hstar
    obtain ⟨es, htok, hfits, hlen, hiff⟩ := hstar
    rw [hiff, htok]
    constructor
    · intro hlang
      obtain ⟨j, hij, _, hj⟩ := hlang.stops
      rw [lang_append] at hj
      have hjle := hj.2.le
      obtain rfl : j = star.2 := by omega
      rw [hlen]
      exact hj.2
    · intro hlang
      rw [hlen] at hlang
      exact .stop (lang_append.mpr ⟨hfits, hlang⟩)

theorem Tracks.take (h : Tracks fl t L st) {e : Elem} (hs : st.s < t.length) (htok : tokens fl st.p = some e :: tokens fl q)
    (he : e.takes fl fl.period t st.s) : Tracks fl t L { st with p := q, s := st.s + 1 } := by
  obtain ⟨_, hperiod, hstar⟩ := h
  refine ⟨hs, hperiod, ?_⟩
  dsimp only
  cases hst : st.star with
  | none =>
    rw [hst] at hstar
    dsimp only at hstar ⊢
    rw [hstar, htok, lang_one]
    exact ⟨fun h => h.2.2, fun h => ⟨hs, he, h⟩⟩
  | some star =>
    rw [hst] at hstar
    obtain ⟨es, htoks, hfits, hlen, hiff⟩ := hstar
    refine ⟨es ++ [e], ?_, hfits.snoc (hlen ▸ hs) (hlen ▸ he), ?_, hiff⟩
    · rw [htoks, htok]
      simp
    · rw [hlen, List.length_append]
      rfl

/-- A star at the end of the pattern takes the rest of the string unless there is a slash in it. -/
theorem lang_last_star (hfree : Free fl t s) (hs : s < t.length) :
    (!(fl.pathname && (t.drop s).any (· = chr '/'))) = true ↔ Lang fl t [none] s := by
  have hslash : (t.drop s).any (· = chr '/') = true ↔ ∃ x, s ≤ x ∧ x < t.length ∧ charAt t x = chr '/' := by
    rw [List.any_eq_true]
    constructor
    · intro h
      obtain ⟨c, hc, heq⟩ := h
      obtain ⟨x, hx, rfl⟩ := List.mem_iff_getElem.mp hc
      rw [List.length_drop] at hx
      refine ⟨s + x, by omega, by omega, ?_⟩
      rw [charAt, List.getD_eq_getElem _ _ (by omega)]
      simpa using heq
    · intro h
      obtain ⟨x, hsx, hx, heq⟩ := h
      refine ⟨charAt t x, ?_, decide_eq_true heq⟩
      rw [charAt, List.getD_eq_getElem _ _ hx]
      rw [List.mem_iff_getElem]
      refine ⟨x - s, by rw [List.length_drop]; omega, ?_⟩
      rw [List.getElem_drop]
      congr 1
      omega
  rw [Bool.not_eq_true', Bool.and_eq_false_iff, ← Bool.not_eq_true, ← Bool.not_eq_true, hslash]
  constructor
  · intro h
    refine lang_from ?_ hs.le le_rfl (.stop .done)
    intro x hx hlt
    obtain rfl | hne := eq_or_ne x s
    · exact hfree
    refine ⟨fun hp => ?_, fun hdot => ?_⟩
    · exact h.elim (fun h => h hp.1) (fun h => h ⟨x, hx, hlt, hp.2⟩)
    · have hlead := hdot.2.2
      rw [leading, Bool.or_eq_true, Bool.and_eq_true, decide_eq_true_iff, decide_eq_true_iff] at hlead
      obtain hzero | hp := hlead
      · omega
      · exact h.elim (fun h => h hp.1) (fun h => h ⟨x - 1, by omega, by omega, hp.2⟩)
  · intro h
    obtain ⟨j, _, hall, hj⟩ := h.stops
    cases hj
    by_cases hp : fl.pathname = true
    · right
      intro hslash
      obtain ⟨x, hx, hlt, heq⟩ := hslash
      exact (hall x hx hlt).1 ⟨hp, heq⟩
    · exact Or.inl hp

/-- A turn either takes a step it may not, and then there is nothing to match, or keeps what it has to decide. -/
theorem turn_sound (h : Tracks fl t L st) :
    (Wrong fl t st ∧ ¬L) ∨
      (¬Wrong fl t st ∧ ((∃ r, fnmatchTurn fl t st = .inr r ∧ (r = true ↔ L)) ∨
        ∃ st', fnmatchTurn fl t st = .inl st' ∧ Tracks fl t L st')) := by
  rw [fnmatchTurn, Wrong]
  by_cases hs : t.length ≤ st.s
  · rw [if_pos hs, h.at_end hs]
    exact Or.inr ⟨fun hw => absurd hw.1 (not_lt.mpr hs), Or.inl ⟨_, rfl, decide_eq_true_iff⟩⟩
  rw [if_neg hs]
  have hlt : st.s < t.length := not_le.mp hs
  by_cases hp : st.p.head? = some (chr '*')
  · rw [if_pos hp, if_pos hp]
    have hat := h.at_star hp
    dsimp only
    by_cases hskip : skipStars st.p = []
    · rw [if_pos hskip]
      rw [hskip, tokens] at hat
      by_cases hfree : Free fl t st.s
      · refine Or.inr ⟨fun hw => hw.2.2 hfree, Or.inl ⟨_, rfl, ?_⟩⟩
        rw [hat]
        exact lang_last_star hfree hlt
      · refine Or.inl ⟨⟨hlt, hskip, hfree⟩, fun hL => ?_⟩
        obtain hdone | hmore := lang_star.mp (hat.mp hL)
        · generalize hend : st.s = k at hdone
          cases hdone
          exact hlt.ne hend
        · exact hfree hmore.2.1
    · rw [if_neg hskip]
      refine Or.inr ⟨fun hw => hskip hw.2.1, Or.inr ⟨_, rfl, hlt.le, ?_, [], rfl, trivial, rfl, hat⟩⟩
      intro hfalse
      cases hfalse
  rw [if_neg hp, if_neg hp]
  cases hone : fnmatchOne fl st.period t st.p st.s with
  | some q =>
    obtain ⟨e, htok, htakes, _⟩ := one_some hp hone
    dsimp only
    cases hfl : fnmatchOne fl fl.period t st.p st.s with
    | none =>
      -- only the period the star has cleared lets the element take the character
      have hnot := one_none hp (fun h => h) hfl hlt
      refine Or.inl ⟨⟨hlt, rfl⟩, fun hL => ?_⟩
      have hstop : ¬Free fl t st.s := by
        intro hfree
        cases hc : st.p with
        | nil =>
          rw [hc] at hone
          cases hone
        | cons c p =>
          rw [hc] at hone hfl hp
          obtain ⟨_, heq⟩ | ⟨hno, _⟩ := fnmatchOne_eq fl fl.period t c p st.s
          · rw [heq] at hfl
            cases hfl
          · obtain ⟨hyes, _⟩ | ⟨_, heq⟩ := fnmatchOne_eq fl st.period t c p st.s
            · exact hno ⟨Or.inr hfree, hyes.2⟩
            · rw [heq] at hone
              cases hone
      exact hnot (h.pinned hstop hL)
    | some q' =>
      obtain ⟨e', htok', htakes', _⟩ := one_some hp hfl
      rw [htok] at htok'
      obtain rfl : e = e' := Option.some.inj (List.cons.inj htok').1
      refine Or.inr ⟨?_, Or.inr ⟨_, rfl, h.take hlt htok htakes'⟩⟩
      intro hw
      cases hw.2
  | none =>
    have hnot := one_none hp h.2.1 hone hlt
    dsimp only
    obtain ⟨hle, hperiod, hstar⟩ := id h
    cases hst : st.star with
    | none =>
      rw [hst] at hstar
      dsimp only at hstar ⊢
      refine Or.inr ⟨?_, Or.inl ⟨_, rfl, ?_⟩⟩
      · intro hw
        obtain ⟨_, _, _, hcases, _⟩ := hw
        cases hcases
      · rw [hstar]
        exact ⟨fun hfalse => (Bool.false_ne_true hfalse).elim, fun hlang => absurd hlang hnot⟩
    | some star =>
      obtain ⟨starP, starS⟩ := star
      rw [hst] at hstar
      obtain ⟨es, htok, hfits, hlen, hiff⟩ := hstar
      dsimp only
      by_cases hslash : fl.pathname = true ∧ charAt t st.s = chr '/'
      · rw [if_pos hslash]
        refine Or.inr ⟨?_, Or.inl ⟨_, rfl, ?_⟩⟩
        · intro hw
          obtain ⟨_, _, _, _, hno, _⟩ := hw
          exact hno hslash
        · have hstop : ¬Free fl t st.s := fun hfree => hfree.1 hslash
          exact ⟨fun hfalse => (Bool.false_ne_true hfalse).elim, fun hL => absurd (h.pinned hstop hL) hnot⟩
      rw [if_neg hslash]
      have hretry : L ↔ starS < t.length ∧ Free fl t starS ∧ Lang fl t (none :: tokens fl starP) (starS + 1) := by
        rw [hiff, lang_star]
        refine ⟨fun hlang => hlang.resolve_left fun hnow => ?_, Or.inr⟩
        rw [htok, lang_append, ← hlen] at hnow
        exact hnot hnow.2
      by_cases hfree : Free fl t starS
      · refine Or.inr ⟨?_, Or.inr ⟨_, rfl, by dsimp only; omega, hperiod, [], rfl, trivial, rfl, ?_⟩⟩
        · intro hw
          obtain ⟨_, _, _, hcases, _, hno⟩ := hw
          cases hcases
          exact hno hfree
        · rw [hretry]
          exact ⟨fun h => h.2.2, fun h => ⟨by omega, hfree, h⟩⟩
      · exact Or.inl ⟨⟨hlt, starP, starS, rfl, hslash, hfree⟩, fun hL => hfree (hretry.mp hL).2.1⟩

/-- The loop takes a wrong step some time. -/
inductive Strays (fl : FnFlags) (t : List CChar) : FnState → Prop
  | here {st : FnState} : Wrong fl t st → Strays fl t st
  | later {st st' : FnState} : fnmatchTurn fl t st = .inl st' → Strays fl t st' → Strays fl t st

inductive Ends (fl : FnFlags) (t : List CChar) : FnState → Bool → Prop
  | stop {st : FnState} {r : Bool} : fnmatchTurn fl t st = .inr r → Ends fl t st r
  | step {st st' : FnState} {r : Bool} : fnmatchTurn fl t st = .inl st' → Ends fl t st' r → Ends fl t st r

theorem Ends.sound (h : Ends fl t st r) (htracks : Tracks fl t L st) :
    (Strays fl t st ∧ ¬L) ∨ (¬Strays fl t st ∧ (r = true ↔ L)) := by
  induction h with
  | stop hturn =>
    obtain ⟨hwrong, hL⟩ | ⟨hright, hstop | ⟨st', hstep, _⟩⟩ := turn_sound htracks
    · exact Or.inl ⟨.here hwrong, hL⟩
    · obtain ⟨r', hr', hiff⟩ := hstop
      rw [hturn] at hr'
      obtain rfl := Sum.inr.inj hr'
      refine Or.inr ⟨fun hstray => ?_, hiff⟩
      cases hstray with
      | here hwrong => exact hright hwrong
      | later hstep =>
        rw [hturn] at hstep
        cases hstep
    · rw [hturn] at hstep
      cases hstep
  | step hturn _ ih =>
    obtain ⟨hwrong, hL⟩ | ⟨hright, hstop | ⟨st', hstep, hnext⟩⟩ := turn_sound htracks
    · exact Or.inl ⟨.here hwrong, hL⟩
    · obtain ⟨r', hr', _⟩ := hstop
      rw [hturn] at hr'
      cases hr'
    · rw [hturn] at hstep
      obtain rfl := Sum.inl.inj hstep
      obtain ⟨hstray, hL⟩ | ⟨hnot, hiff⟩ := ih hnext
      · exact Or.inl ⟨.later hturn hstray, hL⟩
      · refine Or.inr ⟨fun hstray => ?_, hiff⟩
        cases hstray with
        | here hwrong => exact hright hwrong
        | later hstep hstray =>
          rw [hturn] at hstep
          obtain rfl := Sum.inl.inj hstep
          exact hnot hstray

theorem Ends.fuel (h : Ends fl t st r) : ∃ N, ∀ fuel, N ≤ fuel → fnmatchLoop fl t fuel st = some r := by
  induction h with
  | stop hturn =>
    refine ⟨1, fun fuel hfuel => ?_⟩
    obtain ⟨fuel, rfl⟩ := Nat.exists_eq_add_of_le' hfuel
    rw [fnmatchLoop, hturn]
  | step hturn _ ih =>
    obtain ⟨N, hN⟩ := ih
    refine ⟨N + 1, fun fuel hfuel => ?_⟩
    obtain ⟨fuel, rfl⟩ := Nat.exists_eq_add_of_le' (Nat.le_trans (Nat.le_add_left 1 N) hfuel)
    rw [fnmatchLoop, hturn]
    exact hN fuel (by omega)

/-- What is left to do: the pattern behind the last star, the places for its retry, the rest of the string. -/
def rank (t : List CChar) (st : FnState) : ℕ ×ₗ ℕ ×ₗ ℕ :=
  match st.star with
  | none => toLex (st.p.length + 1, toLex (0, 0))
  | some (starP, starS) => toLex (starP.length, toLex (t.length - starS, t.length - st.s))

def Settled (st : FnState) : Prop :=
  ∀ starP starS, st.star = some (starP, starS) → st.p.length ≤ starP.length ∧ starS ≤ st.s

theorem turn_rank (h : Settled st) (hturn : fnmatchTurn fl t st = .inl st') : Settled st' ∧ rank t st' < rank t st := by
  rw [fnmatchTurn] at hturn
  by_cases hs : t.length ≤ st.s
  · rw [if_pos hs] at hturn
    cases hturn
  rw [if_neg hs] at hturn
  have hlt : st.s < t.length := not_le.mp hs
  by_cases hp : st.p.head? = some (chr '*')
  · rw [if_pos hp] at hturn
    dsimp only at hturn
    obtain ⟨q, _, hskip, hq⟩ := lang_head_star fl hp
    have hlen : (skipStars st.p).length < st.p.length := by
      rw [hskip]
      exact (skipStars_length q).trans_lt hq
    split at hturn
    · cases hturn
    · obtain rfl := Sum.inl.inj hturn
      refine ⟨?_, ?_⟩
      · intro starP starS hst
        cases hst
        exact ⟨le_rfl, le_rfl⟩
      · cases hst : st.star with
        | none =>
          rw [rank, rank, hst]
          exact Prod.Lex.left _ _ (by omega)
        | some star =>
          have hle := (h star.1 star.2 hst).1
          rw [rank, rank, hst]
          exact Prod.Lex.left _ _ (by omega)
  rw [if_neg hp] at hturn
  cases hone : fnmatchOne fl st.period t st.p st.s with
  | some q =>
    obtain ⟨_, _, _, hq⟩ := one_some hp hone
    rw [hone] at hturn
    obtain rfl := Sum.inl.inj hturn
    refine ⟨?_, ?_⟩
    · intro starP starS hst
      obtain ⟨hle, hstarS⟩ := h starP starS hst
      exact ⟨hq.le.trans hle, Nat.le_succ_of_le hstarS⟩
    · cases hst : st.star with
      | none =>
        rw [rank, rank]
        dsimp only
        rw [hst]
        exact Prod.Lex.left _ _ (by omega)
      | some star =>
        rw [rank, rank]
        dsimp only
        rw [hst]
        exact Prod.Lex.right _ (Prod.Lex.right _ (by omega))
  | none =>
    rw [hone] at hturn
    cases hst : st.star with
    | none =>
      rw [hst] at hturn
      cases hturn
    | some star =>
      obtain ⟨starP, starS⟩ := star
      rw [hst] at hturn
      dsimp only at hturn
      split at hturn
      · cases hturn
      · obtain rfl := Sum.inl.inj hturn
        have hle := (h starP starS hst).2
        refine ⟨?_, ?_⟩
        · intro starP' starS' heq
          cases heq
          exact ⟨le_rfl, le_rfl⟩
        · rw [rank, rank, hst]
          exact Prod.Lex.right _ (Prod.Lex.left _ _ (by omega))

theorem loop_ends (st : FnState) (h : Settled st) : ∃ r, Ends fl t st r := by
  induction hr : rank t st using WellFoundedLT.induction generalizing st with
  | ind k ih =>
    cases hturn : fnmatchTurn fl t st with
    | inr r => exact ⟨r, .stop hturn⟩
    | inl st' =>
      obtain ⟨hsettled, hlt⟩ := turn_rank h hturn
      obtain ⟨r, hends⟩ := ih (rank t st') (hr ▸ hlt) st' hsettled rfl
      exact ⟨r, .step hturn hends⟩

/-- Without the flags there is nothing the loop may not do. -/
theorem Strays.flags (h : Strays fl t st) : fl.pathname = true ∨ st.period = true ∨ fl.period = true := by
  by_contra hnone
  rw [not_or, not_or] at hnone
  obtain ⟨hpath, hst, hfl⟩ := hnone
  have hfree : ∀ x, Free fl t x := fun x => ⟨fun h => hpath h.1, fun h => hfl h.1⟩
  induction h with
  | @here st hwrong =>
    have hstep := hwrong.2
    split at hstep
    · exact hstep.2 (hfree _)
    split at hstep
    · rename_i q hone
      rw [Bool.not_eq_true] at hst hfl
      rw [hst, ← hfl, hstep] at hone
      cases hone
    · obtain ⟨_, starS, _, _, hno⟩ := hstep
      exact hno (hfree starS)
  | @later st st' hturn _ ih =>
    apply ih
    rw [fnmatchTurn] at hturn
    split at hturn
    · cases hturn
    split at hturn
    · dsimp only at hturn
      split at hturn
      · cases hturn
      · obtain rfl := Sum.inl.inj hturn
        exact Bool.false_ne_true
    split at hturn
    · obtain rfl := Sum.inl.inj hturn
      exact hst
    split at hturn
    · cases hturn
    split at hturn
    · cases hturn
    · obtain rfl := Sum.inl.inj hturn
      exact hst

end Runs

def chars (s : String) : List CChar := s.toList.map chr

def pathFlags : FnFlags := { pathname := true, noescape := false, period := false, casefold := false }

def periodFlags : FnFlags := { pathname := false, noescape := false, period := true, casefold := false }

end Lebirun.Regex
