import Mathlib

namespace Lebirun.Regex
set_option autoImplicit true

/-- A value of the signed `char`; strings are without their NUL. -/
abbrev CChar := Int

def chr (c : Char) : CChar := c.toNat

structure FnFlags where
  pathname : Bool
  noescape : Bool
  period : Bool
  casefold : Bool

def charTolower (c : CChar) : CChar := if chr 'A' ≤ c ∧ c ≤ chr 'Z' then c + 32 else c

def FnFlags.fold (fl : FnFlags) (c : CChar) : CChar := if fl.casefold then charTolower c else c

/-- The character at a position of the string. -/
def charAt (t : List CChar) (i : Nat) : CChar := t.getD i 0

/-- `s == string || (pathname && s[-1] == '/')` -/
def leading (fl : FnFlags) (t : List CChar) (i : Nat) : Bool :=
  i = 0 || (fl.pathname && charAt t (i - 1) = chr '/')

/-- A character of a bracket expression, the next one where it is quoted, with what follows. -/
def bracketChar (fl : FnFlags) (c : CChar) : List CChar → CChar × List CChar
  | [] => (c, [])
  | q :: p => if c = chr '\\' ∧ !fl.noescape then (q, p) else (c, q :: p)

/-- The loop over a bracket expression with its accumulated answer; the first argument counts the characters
left, of which each turn takes at least one. -/
def bracketLoop (fl : FnFlags) (s : CChar) : Nat → Bool → List CChar → Bool × List CChar
  | 0, found, p => (found, p)
  | _ + 1, found, [] => (found, [])
  | left + 1, found, c :: p =>
    if c = chr ']' then (found, c :: p)
    else
      match bracketChar fl c p with
      | (c1, p) =>
        match p with
        | d :: c2 :: q =>
          if d = chr '-' ∧ c2 ≠ chr ']' then
            match bracketChar fl c2 q with
            | (c2, q) =>
              bracketLoop fl s left (found || (fl.fold c1 ≤ fl.fold s && fl.fold s ≤ fl.fold c2)) q
          else bracketLoop fl s left (found || fl.fold s = fl.fold c1) p
        | _ => bracketLoop fl s left (found || fl.fold s = fl.fold c1) p

/-- `fnmatch_one` at a pattern and a position: the pattern behind what matched. -/
def fnmatchOne (fl : FnFlags) (period : Bool) (t : List CChar) (p : List CChar) (i : Nat) : Option (List CChar) :=
  let s := charAt t i
  match p with
  | [] => none
  | c :: p =>
    if c = chr '?' then
      if fl.pathname ∧ s = chr '/' then none
      else if period ∧ s = chr '.' ∧ leading fl t i then none
      else some p
    else if c = chr '[' then
      if fl.pathname ∧ s = chr '/' then none
      else if period ∧ s = chr '.' ∧ leading fl t i then none
      else
        let negate := p.head? = some (chr '!') ∨ p.head? = some (chr '^')
        let p := if negate then p.tail else p
        match bracketLoop fl s p.length false p with
        | (found, p) =>
          let p := if p.head? = some (chr ']') then p.tail else p
          if (if negate then found else !found) then none else some p
    else
      match (if c = chr '\\' ∧ !fl.noescape ∧ p ≠ [] then p else c :: p) with
      | [] => none
      | c :: p => if fl.fold c ≠ fl.fold s then none else some p

def skipStars (p : List CChar) : List CChar := p.dropWhile (· = chr '*')

/-- The variables of `fnmatch_internal`. -/
structure FnState where
  p : List CChar
  s : Nat
  star : Option (List CChar × Nat)
  period : Bool

/-- One turn of the loop, or the answer after it. -/
def fnmatchTurn (fl : FnFlags) (t : List CChar) (st : FnState) : FnState ⊕ Bool :=
  if t.length ≤ st.s then .inr (skipStars st.p = [])
  else if st.p.head? = some (chr '*') then
    let p := skipStars st.p
    if p = [] then .inr (!(fl.pathname && (t.drop st.s).any (· = chr '/')))
    else .inl { p := p, s := st.s, star := some (p, st.s), period := false }
  else
    match fnmatchOne fl st.period t st.p st.s with
    | some p => .inl { st with p := p, s := st.s + 1 }
    | none =>
      match st.star with
      | none => .inr false
      | some (starP, starS) =>
        if fl.pathname ∧ charAt t st.s = chr '/' then .inr false
        else .inl { st with p := starP, s := starS + 1, star := some (starP, starS + 1) }

def fnmatchLoop (fl : FnFlags) (t : List CChar) : Nat → FnState → Option Bool
  | 0, _ => none
  | fuel + 1, st =>
    match fnmatchTurn fl t st with
    | .inr r => some r
    | .inl st => fnmatchLoop fl t fuel st

def fnmatchStart (fl : FnFlags) (pattern : List CChar) : FnState :=
  { p := pattern, s := 0, star := none, period := fl.period }

/-- Does `fnmatch_internal` return 0, within a number of turns? -/
def fnmatchInternal (fl : FnFlags) (fuel : Nat) (pattern string : List CChar) : Option Bool :=
  fnmatchLoop fl string fuel (fnmatchStart fl pattern)

section Tokens

inductive Item where
  | one (c : CChar)
  | range (lo hi : CChar)

inductive Elem where
  | any
  | bracket (negate : Bool) (items : List Item)
  | lit (c : CChar)

def Item.lists (fl : FnFlags) (s : CChar) : Item → Bool
  | .one c => fl.fold s = fl.fold c
  | .range lo hi => fl.fold lo ≤ fl.fold s && fl.fold s ≤ fl.fold hi

/-- The characters an element of a pattern stands for. -/
def Elem.accepts (fl : FnFlags) (s : CChar) : Elem → Bool
  | .any => true
  | .bracket negate items => items.any (Item.lists fl s) != negate
  | .lit c => fl.fold c = fl.fold s

def Elem.isLit : Elem → Bool
  | .lit _ => true
  | _ => false

/-- The first item of a bracket expression, `c` being its first character. -/
def bracketItem (fl : FnFlags) (c : CChar) (p : List CChar) : Item × List CChar :=
  match bracketChar fl c p with
  | (c1, p) =>
    match p with
    | d :: c2 :: q =>
      if d = chr '-' ∧ c2 ≠ chr ']' then (.range c1 (bracketChar fl c2 q).1, (bracketChar fl c2 q).2)
      else (.one c1, p)
    | _ => (.one c1, p)

/-- The items up to the first `]` that is not part of one, or to the end of the pattern. -/
def bracketItems (fl : FnFlags) : Nat → List CChar → List Item × List CChar
  | 0, p => ([], p)
  | _ + 1, [] => ([], [])
  | left + 1, c :: p =>
    if c = chr ']' then ([], c :: p)
    else
      let first := bracketItem fl c p
      let rest := bracketItems fl left first.2
      (first.1 :: rest.1, rest.2)

/-- The element that begins with `c`, which is no star, and the pattern behind it. -/
def splitElem (fl : FnFlags) (c : CChar) (p : List CChar) : Elem × List CChar :=
  if c = chr '?' then (.any, p)
  else if c = chr '[' then
    let negate : Bool := p.head? = some (chr '!') ∨ p.head? = some (chr '^')
    let p := if negate then p.tail else p
    let body := bracketItems fl p.length p
    (.bracket negate body.1, if body.2.head? = some (chr ']') then body.2.tail else body.2)
  else
    match p with
    | [] => (.lit c, [])
    | q :: p => if c = chr '\\' ∧ !fl.noescape then (.lit q, p) else (.lit c, q :: p)

variable {fl : FnFlags} {p : List CChar} {c s : CChar}

theorem bracketChar_length (fl : FnFlags) (c : CChar) (p : List CChar) : (bracketChar fl c p).2.length ≤ p.length := by
  cases p with
  | nil => exact le_rfl
  | cons q p =>
    rw [bracketChar]
    split
    · exact Nat.le_succ _
    · exact le_rfl

theorem bracketItem_length (fl : FnFlags) (c : CChar) (p : List CChar) : (bracketItem fl c p).2.length ≤ p.length := by
  have hchar := bracketChar_length fl c p
  rw [bracketItem]
  generalize bracketChar fl c p = r at hchar
  obtain ⟨c1, p'⟩ := r
  dsimp only at hchar ⊢
  split
  · rename_i d c2 q
    split
    · have hsnd := bracketChar_length fl c2 q
      dsimp only
      simp only [List.length_cons] at hchar
      omega
    · exact hchar
  · exact hchar

theorem bracketItems_length (fl : FnFlags) (left : Nat) (p : List CChar) :
    (bracketItems fl left p).2.length ≤ p.length := by
  induction left generalizing p with
  | zero => exact le_rfl
  | succ left ih =>
    cases p with
    | nil => exact le_rfl
    | cons c p =>
      rw [bracketItems]
      split
      · exact le_rfl
      · have hfirst := bracketItem_length fl c p
        have hrest := ih (bracketItem fl c p).2
        dsimp only
        rw [List.length_cons]
        omega

theorem length_tail_le (p : List CChar) : p.tail.length ≤ p.length := by
  rw [List.length_tail]
  exact Nat.sub_le _ 1

theorem splitElem_length (fl : FnFlags) (c : CChar) (p : List CChar) : (splitElem fl c p).2.length ≤ p.length := by
  have hbody : ∀ q : List CChar, q.length ≤ p.length →
      (if (bracketItems fl q.length q).2.head? = some (chr ']') then (bracketItems fl q.length q).2.tail
        else (bracketItems fl q.length q).2).length ≤ p.length := by
    intro q hq
    have hitems := bracketItems_length fl q.length q
    split
    · exact (length_tail_le _).trans (hitems.trans hq)
    · exact hitems.trans hq
  rw [splitElem.eq_def]
  split
  · exact le_rfl
  split
  · apply hbody
    split
    · exact length_tail_le p
    · exact le_rfl
  · cases p with
    | nil => exact le_rfl
    | cons q p =>
      dsimp only
      split
      · exact Nat.le_succ _
      · exact le_rfl

/-- The pattern as a list of stars and elements. -/
def tokens (fl : FnFlags) : List CChar → List (Option Elem)
  | [] => []
  | c :: p =>
    if c = chr '*' then none :: tokens fl p
    else some (splitElem fl c p).1 :: tokens fl (splitElem fl c p).2
termination_by p => p.length
decreasing_by
  · simp
  · have := splitElem_length fl c p
    simp
    omega

/-- The loop finds whether one of the items lists the character. -/
theorem bracketLoop_eq (left : Nat) (found : Bool) (p : List CChar) :
    bracketLoop fl s left found p =
      (found || (bracketItems fl left p).1.any (Item.lists fl s), (bracketItems fl left p).2) := by
  induction left generalizing found p with
  | zero => simp [bracketLoop, bracketItems]
  | succ left ih =>
    cases p with
    | nil => simp [bracketLoop, bracketItems]
    | cons c p =>
      rw [bracketLoop, bracketItems]
      split
      · simp
      · rw [bracketItem]
        generalize bracketChar fl c p = r
        obtain ⟨c1, p'⟩ := r
        dsimp only
        split
        · rename_i d c2 q
          split
          · rw [ih]
            simp [Item.lists, Bool.or_assoc]
          · rw [ih]
            simp [Item.lists, Bool.or_assoc]
        · rw [ih]
          simp [Item.lists, Bool.or_assoc]

/-- May the character at a position be taken by something that is not literal? -/
def Free (fl : FnFlags) (t : List CChar) (i : Nat) : Prop :=
  ¬(fl.pathname = true ∧ charAt t i = chr '/') ∧
    ¬(fl.period = true ∧ charAt t i = chr '.' ∧ leading fl t i = true)

/-- The test of `fnmatch_one` on the element at the head of its pattern. -/
def Elem.takes (fl : FnFlags) (period : Bool) (t : List CChar) (i : Nat) (e : Elem) : Prop :=
  (e.isLit = true ∨ Free { fl with period := period } t i) ∧ e.accepts fl (charAt t i) = true

theorem tokens_cons (hc : c ≠ chr '*') :
    tokens fl (c :: p) = some (splitElem fl c p).1 :: tokens fl (splitElem fl c p).2 := by
  rw [tokens, if_neg hc]

theorem free_gate (fl : FnFlags) (period : Bool) (t : List CChar) (i : Nat) {α : Type} (r : Option α) :
    (Free { fl with period := period } t i ∧
      (if fl.pathname ∧ charAt t i = chr '/' then none
        else if period ∧ charAt t i = chr '.' ∧ leading fl t i then none else r) = r) ∨
    (¬Free { fl with period := period } t i ∧
      (if fl.pathname ∧ charAt t i = chr '/' then none
        else if period ∧ charAt t i = chr '.' ∧ leading fl t i then none else r) = none) := by
  by_cases hslash : fl.pathname = true ∧ charAt t i = chr '/'
  · rw [if_pos hslash]
    exact Or.inr ⟨fun h => h.1 hslash, rfl⟩
  · rw [if_neg hslash]
    by_cases hdot : period = true ∧ charAt t i = chr '.' ∧ leading fl t i = true
    · rw [if_pos hdot]
      exact Or.inr ⟨fun h => h.2 hdot, rfl⟩
    · rw [if_neg hdot]
      exact Or.inl ⟨⟨hslash, hdot⟩, rfl⟩

/-- `fnmatch_one` splits off one element and tests it. -/
theorem fnmatchOne_eq (fl : FnFlags) (period : Bool) (t : List CChar) (c : CChar) (p : List CChar) (i : Nat) :
    ((splitElem fl c p).1.takes fl period t i ∧ fnmatchOne fl period t (c :: p) i = some (splitElem fl c p).2) ∨
      (¬(splitElem fl c p).1.takes fl period t i ∧ fnmatchOne fl period t (c :: p) i = none) := by
  rw [fnmatchOne.eq_def, splitElem.eq_def]
  dsimp only
  by_cases hany : c = chr '?'
  · rw [if_pos hany, if_pos hany]
    obtain ⟨hfree, heq⟩ | ⟨hfree, heq⟩ := free_gate fl period t i (some p)
    · exact Or.inl ⟨⟨Or.inr hfree, rfl⟩, heq⟩
    · exact Or.inr ⟨fun h => hfree (h.1.resolve_left Bool.false_ne_true), heq⟩
  rw [if_neg hany, if_neg hany]
  by_cases hbr : c = chr '['
  · rw [if_pos hbr, if_pos hbr]
    obtain ⟨hfree, heq⟩ | ⟨hfree, heq⟩ := @free_gate fl period t i (List CChar) _
    · rw [heq, bracketLoop_eq]
      have haccepts : ∀ negate : Bool, ∀ items : List Item,
          (Elem.bracket negate items).accepts fl (charAt t i) =
            (items.any (Item.lists fl (charAt t i)) != negate) := fun _ _ => rfl
      by_cases hneg : p.head? = some (chr '!') ∨ p.head? = some (chr '^')
      · simp only [hneg, decide_true, if_true, Bool.false_or]
        generalize bracketItems fl p.tail.length p.tail = body
        cases hlists : body.1.any (Item.lists fl (charAt t i)) with
        | false =>
          refine Or.inl ⟨⟨Or.inr hfree, ?_⟩, if_neg Bool.false_ne_true⟩
          rw [haccepts, hlists]
          rfl
        | true =>
          refine Or.inr ⟨fun h => ?_, if_pos rfl⟩
          have htakes := h.2
          rw [haccepts, hlists] at htakes
          exact absurd htakes (by decide)
      · simp only [hneg, decide_false, if_false, Bool.false_or, Bool.false_eq_true]
        generalize bracketItems fl p.length p = body
        cases hlists : body.1.any (Item.lists fl (charAt t i)) with
        | false =>
          refine Or.inr ⟨fun h => ?_, if_pos rfl⟩
          have htakes := h.2
          rw [haccepts, hlists] at htakes
          exact absurd htakes (by decide)
        | true =>
          refine Or.inl ⟨⟨Or.inr hfree, ?_⟩, if_neg (by decide)⟩
          rw [haccepts, hlists]
          rfl
    · exact Or.inr ⟨fun h => hfree (h.1.resolve_left Bool.false_ne_true), heq⟩
  · rw [if_neg hbr, if_neg hbr]
    -- a literal, with its backslash or without
    have hlit : ∀ d : CChar, ∀ q : List CChar,
        ((Elem.lit d).takes fl period t i ∧
          (if fl.fold d ≠ fl.fold (charAt t i) then none else some q) = some q) ∨
        (¬(Elem.lit d).takes fl period t i ∧
          (if fl.fold d ≠ fl.fold (charAt t i) then none else some q) = none) := by
      intro d q
      by_cases heq : fl.fold d = fl.fold (charAt t i)
      · exact Or.inl ⟨⟨Or.inl rfl, decide_eq_true heq⟩, if_neg (not_not_intro heq)⟩
      · exact Or.inr ⟨fun h => heq (of_decide_eq_true h.2), if_pos heq⟩
    cases p with
    | nil => simpa using hlit c []
    | cons q p =>
      dsimp only
      by_cases hquote : c = chr '\\' ∧ (!fl.noescape) = true
      · rw [if_pos hquote, if_pos ⟨hquote.1, hquote.2, List.cons_ne_nil q p⟩]
        exact hlit q p
      · rw [if_neg hquote, if_neg (fun h => hquote ⟨h.1, h.2.1⟩)]
        exact hlit c (q :: p)

end Tokens

end Lebirun.Regex
