import Mathlib

namespace Buckets
set_option autoImplicit true
set_option linter.unusedSectionVars false

variable {β κ : Type*} [DecidableEq κ] {key : β → κ} {ix : κ → Nat} {n m i : Nat}
  {t t' : Nat → List β} {l l' x y : List β}

/-- All entries of a table of `n` chains. -/
def all (n : Nat) (t : Nat → List β) : List β := (List.range n).flatMap t

theorem mem_all : b ∈ all n t ↔ ∃ i < n, b ∈ t i := by
  simp [all]

/-- One chain is replaced. -/
theorem all_update (hi : i < n) (h : (x ++ t i).Perm (y ++ l)) :
    (x ++ all n t).Perm (y ++ all n (Function.update t i l)) := by
  obtain ⟨u, v, huv⟩ := List.append_of_mem (List.mem_range.2 hi)
  have hnd := List.nodup_range (n := n)
  rw [huv, List.nodup_append] at hnd
  have hout : ∀ j ∈ u ++ v, Function.update t i l j = t j := by
    intro j hj
    apply Function.update_of_ne
    rintro rfl
    rcases List.mem_append.1 hj with hj | hj
    · exact hnd.2.2 j hj j List.mem_cons_self rfl
    · exact (List.nodup_cons.1 hnd.2.1).1 hj
  have hu : u.flatMap (Function.update t i l) = u.flatMap t :=
    List.flatMap_congr fun j hj => hout j (List.mem_append_left _ hj)
  have hv : v.flatMap (Function.update t i l) = v.flatMap t :=
    List.flatMap_congr fun j hj => hout j (List.mem_append_right _ hj)
  rw [all, all, huv, List.flatMap_append, List.flatMap_append, List.flatMap_cons,
    List.flatMap_cons, hu, hv, Function.update_self]
  calc
    (x ++ (u.flatMap t ++ (t i ++ v.flatMap t))).Perm (u.flatMap t ++ (x ++ (t i ++ v.flatMap t))) :=
      List.perm_append_comm_assoc _ _ _
    _ |>.Perm (u.flatMap t ++ (y ++ (l ++ v.flatMap t))) := by
      rw [← List.append_assoc x, ← List.append_assoc y]
      exact (h.append_right _).append_left _
    _ |>.Perm (y ++ (u.flatMap t ++ (l ++ v.flatMap t))) := List.perm_append_comm_assoc _ _ _

/-- Every entry is in the chain of its key, and no key has two. -/
structure Ok (key : β → κ) (ix : κ → Nat) (n : Nat) (t : Nat → List β) : Prop where
  bound : ∀ k, ix k < n
  placed : ∀ i < n, ∀ b ∈ t i, ix (key b) = i
  nodup : ((all n t).map key).Nodup

def find (key : β → κ) (ix : κ → Nat) (t : Nat → List β) (k : κ) : Option β :=
  (t (ix k)).find? fun b => key b = k

theorem Ok.mem_chain (h : Ok key ix n t) (hb : b ∈ all n t) : b ∈ t (ix (key b)) := by
  obtain ⟨i, hi, hb⟩ := mem_all.1 hb
  rw [h.placed i hi b hb]
  exact hb

theorem Ok.find_eq_some (h : Ok key ix n t) :
    find key ix t k = some b ↔ b ∈ all n t ∧ key b = k := by
  constructor
  · intro hf
    have hk := List.find?_some hf
    exact ⟨mem_all.2 ⟨ix k, h.bound k, List.mem_of_find?_eq_some hf⟩, by simpa using hk⟩
  · intro hb
    obtain ⟨hb, rfl⟩ := hb
    have hc := h.mem_chain hb
    cases hf : find key ix t (key b) with
    | none => simpa using List.find?_eq_none.1 hf b hc
    | some c =>
      have hk : key c = key b := by simpa using List.find?_some hf
      have hc' : c ∈ all n t := mem_all.2 ⟨_, h.bound _, List.mem_of_find?_eq_some hf⟩
      rw [List.inj_on_of_nodup_map h.nodup hc' hb hk]

theorem Ok.find_eq_none (h : Ok key ix n t) :
    find key ix t k = none ↔ ∀ b ∈ all n t, key b ≠ k := by
  constructor
  · intro hf b hb hk
    have hs := h.find_eq_some.2 ⟨hb, hk⟩
    rw [hf] at hs
    cases hs
  · intro hall
    cases hf : find key ix t k with
    | none => rfl
    | some b =>
      obtain ⟨hb, hk⟩ := h.find_eq_some.1 hf
      exact absurd hk (hall b hb)

/-- What is found under a key depends on the entries of that key alone. -/
theorem Ok.find_congr {ix' : κ → Nat} (h : Ok key ix n t) (h' : Ok key ix' m t')
    (hm : ∀ b, key b = k → (b ∈ all m t' ↔ b ∈ all n t)) :
    find key ix' t' k = find key ix t k := by
  ext b
  rw [h'.find_eq_some, h.find_eq_some]
  constructor
  · intro hb
    exact ⟨(hm b hb.2).1 hb.1, hb.2⟩
  · intro hb
    exact ⟨(hm b hb.2).2 hb.1, hb.2⟩

/-- A chain is replaced by another one for the same place. -/
theorem Ok.update (h : Ok key ix n t) (hl : ∀ b ∈ l, ix (key b) = i)
    (hnd : ((all n (Function.update t i l)).map key).Nodup) :
    Ok key ix n (Function.update t i l) := by
  refine ⟨h.bound, ?_, hnd⟩
  intro j hj b hb
  by_cases hji : j = i
  · subst j
    rw [Function.update_self] at hb
    exact hl b hb
  · rw [Function.update_of_ne hji] at hb
    exact h.placed j hj b hb

/-- A new entry goes to the end of its chain. -/
def append (key : β → κ) (ix : κ → Nat) (t : Nat → List β) (b : β) : Nat → List β :=
  Function.update t (ix (key b)) (t (ix (key b)) ++ [b])

theorem append_perm (hb : ix (key b) < n) : (all n (append key ix t b)).Perm (b :: all n t) := by
  have hp := all_update (t := t) (x := [b]) (y := []) hb (l := t (ix (key b)) ++ [b])
    List.perm_append_comm
  exact hp.symm

theorem Ok.append (h : Ok key ix n t) (hb : find key ix t (key b) = none) :
    Ok key ix n (append key ix t b) := by
  have hp := append_perm (t := t) (h.bound (key b))
  apply h.update
  · intro c hc
    rcases List.mem_append.1 hc with hc | hc
    · exact h.placed _ (h.bound _) c hc
    · rw [List.mem_singleton] at hc
      rw [hc]
  · refine ((hp.map key).nodup_iff).2 (List.nodup_cons.2 ⟨?_, h.nodup⟩)
    intro hm
    obtain ⟨c, hc, hk⟩ := List.mem_map.1 hm
    exact h.find_eq_none.1 hb c hc hk

theorem Ok.find_append (h : Ok key ix n t) (hb : find key ix t (key b) = none) (k : κ) :
    find key ix (Buckets.append key ix t b) k = if k = key b then some b else find key ix t k := by
  have hp := append_perm (t := t) (h.bound (key b))
  have h' := h.append hb
  split
  · rename_i hk
    exact h'.find_eq_some.2 ⟨hp.mem_iff.2 List.mem_cons_self, hk.symm⟩
  · rename_i hk
    apply h.find_congr h'
    intro c hc
    rw [hp.mem_iff, List.mem_cons, or_iff_right]
    rintro rfl
    exact hk hc.symm

/-- The first entry of a key leaves its chain. -/
def erase (key : β → κ) (ix : κ → Nat) (t : Nat → List β) (k : κ) : Nat → List β :=
  Function.update t (ix k) ((t (ix k)).eraseP fun b => key b = k)

theorem Ok.erase_perm (h : Ok key ix n t) (hb : find key ix t k = some b) :
    (all n t).Perm (b :: all n (erase key ix t k)) := by
  have hf : (t (ix k)).find? (fun b => key b = k) = some b := hb
  obtain ⟨hk, l₁, l₂, hl, hn⟩ := List.find?_eq_some_iff_append.1 hf
  refine all_update (x := []) (y := [b]) (h.bound k) ?_
  rw [List.nil_append, hl, List.eraseP_append_right _ (by simpa using hn), 
    List.eraseP_cons_of_pos (p := fun b => decide (key b = k)) hk]
  exact List.perm_middle

theorem Ok.erase (h : Ok key ix n t) (hb : find key ix t k = some b) :
    Ok key ix n (erase key ix t k) := by
  apply h.update
  · intro c hc
    exact h.placed _ (h.bound _) c (List.mem_of_mem_eraseP hc)
  · have hp := ((h.erase_perm hb).map key).nodup_iff.1 h.nodup
    exact (List.nodup_cons.1 hp).2

theorem Ok.find_erase (h : Ok key ix n t) (hb : find key ix t k = some b) (k' : κ) :
    find key ix (Buckets.erase key ix t k) k' = if k' = k then none else find key ix t k' := by
  have hp := h.erase_perm hb
  have h' := h.erase hb
  have hkey := (h.find_eq_some.1 hb).2
  split
  · rename_i hk
    subst k'
    apply h'.find_eq_none.2
    intro c hc hck
    have hnd := ((hp.map key).nodup_iff).1 h.nodup
    rw [List.map_cons, List.nodup_cons] at hnd
    exact hnd.1 (List.mem_map.2 ⟨c, hc, hck.trans hkey.symm⟩)
  · rename_i hk
    apply h.find_congr h'
    intro c hc
    rw [hp.mem_iff, List.mem_cons, or_iff_right]
    rintro rfl
    exact hk (hc.symm.trans hkey)

/-- The first entry of a list that passes the test is changed. -/
def modifyFirst (p : β → Bool) (f : β → β) : List β → List β
  | [] => []
  | b :: l => if p b then f b :: l else b :: modifyFirst p f l

theorem modifyFirst_perm {p : β → Bool} (f : β → β) (hb : l.find? p = some b) :
    (f b :: l).Perm (b :: modifyFirst p f l) := by
  induction l with
  | nil => cases hb
  | cons c l ih =>
    rw [List.find?_cons] at hb
    rw [modifyFirst]
    cases hp : p c with
    | true =>
      rw [hp] at hb
      cases hb
      exact .swap _ _ _
    | false =>
      rw [hp] at hb
      have hswap : (f b :: c :: l).Perm (c :: f b :: l) := .swap _ _ _
      have hswap' : (c :: b :: modifyFirst p f l).Perm (b :: c :: modifyFirst p f l) := .swap _ _ _
      exact hswap.trans (((ih hb).cons c).trans hswap')

theorem mem_modifyFirst {p : β → Bool} (f : β → β) (hb : l.find? p = some b) :
    f b ∈ modifyFirst p f l := by
  induction l with
  | nil => cases hb
  | cons c l ih =>
    rw [List.find?_cons] at hb
    rw [modifyFirst]
    cases hp : p c with
    | true =>
      rw [hp] at hb
      cases hb
      exact List.mem_cons_self
    | false =>
      rw [hp] at hb
      exact List.mem_cons_of_mem _ (ih hb)

def modify (key : β → κ) (ix : κ → Nat) (f : β → β) (t : Nat → List β) (k : κ) : Nat → List β :=
  Function.update t (ix k) (modifyFirst (fun b => key b = k) f (t (ix k)))

theorem Ok.modify_perm (h : Ok key ix n t) (f : β → β) (hb : find key ix t k = some b) :
    (f b :: all n t).Perm (b :: all n (modify key ix f t k)) :=
  all_update (x := [f b]) (y := [b]) (h.bound k) (modifyFirst_perm f hb)

theorem Ok.modify (h : Ok key ix n t) {f : β → β} (hkey : ∀ b, key (f b) = key b)
    (hb : find key ix t k = some b) : Ok key ix n (modify key ix f t k) := by
  have hp := h.modify_perm f hb
  apply h.update
  · intro c hc
    have hp' := modifyFirst_perm (p := fun b => decide (key b = k)) f hb
    rcases List.mem_cons.1 (hp'.mem_iff.2 (List.mem_cons_of_mem _ hc)) with rfl | hc
    · rw [hkey]
      exact h.placed _ (h.bound _) b (List.mem_of_find?_eq_some hb)
    · exact h.placed _ (h.bound _) c hc
  · have hmap := hp.map key
    rw [List.map_cons, List.map_cons, hkey] at hmap
    exact (hmap.cons_inv.nodup_iff).1 h.nodup

theorem Ok.find_modify (h : Ok key ix n t) {f : β → β} (hkey : ∀ b, key (f b) = key b)
    (hb : find key ix t k = some b) (k' : κ) :
    find key ix (Buckets.modify key ix f t k) k' =
      if k' = k then some (f b) else find key ix t k' := by
  have hp := h.modify_perm f hb
  have h' := h.modify hkey hb
  have hk' := (h.find_eq_some.1 hb).2
  split
  · rename_i hk
    subst k'
    refine h'.find_eq_some.2 ⟨mem_all.2 ⟨ix k, h.bound k, ?_⟩, (hkey b).trans hk'⟩
    rw [Buckets.modify, Function.update_self]
    exact mem_modifyFirst f hb
  · rename_i hk
    apply h.find_congr h'
    intro c hc
    have hm := hp.mem_iff (a := c)
    rw [List.mem_cons, List.mem_cons, or_iff_right, or_iff_right] at hm
    · exact hm.symm
    · rintro rfl
      exact hk (hc.symm.trans hk')
    · rintro rfl
      exact hk (hc.symm.trans ((hkey b).trans hk'))

/-- An entry goes to the front of its chain. -/
def push (key : β → κ) (ix : κ → Nat) (t : Nat → List β) (b : β) : Nat → List β :=
  Function.update t (ix (key b)) (b :: t (ix (key b)))

theorem push_perm (hb : ix (key b) < n) : (all n (push key ix t b)).Perm (b :: all n t) := by
  have hp := all_update (t := t) (x := [b]) (y := []) hb (l := b :: t (ix (key b))) (.refl _)
  exact hp.symm

/-- The entries of the old chains, chain by chain, are pushed on the new ones. -/
def rehash (key : β → κ) (ix : κ → Nat) (m : Nat) (t : Nat → List β) : Nat → List β :=
  (List.range m).foldl (fun t' i => (t i).foldl (push key ix) t') fun _ => []

theorem rehash_eq : rehash key ix m t = (all m t).foldl (push key ix) fun _ => [] := by
  rw [rehash, all, List.foldl_flatMap]

theorem foldl_push_perm (hix : ∀ k, ix k < n) :
    (all n (l.foldl (push key ix) t)).Perm (l ++ all n t) := by
  induction l generalizing t with
  | nil => exact .refl _
  | cons b l ih =>
    have hp : (all n (push key ix t b)).Perm (b :: all n t) := push_perm (hix (key b))
    exact ih.trans ((hp.append_left l).trans List.perm_middle)

theorem all_nil : all n (fun _ => ([] : List β)) = [] := by
  simp [all]

theorem rehash_perm (hix : ∀ k, ix k < n) : (all n (rehash key ix m t)).Perm (all m t) := by
  rw [rehash_eq]
  have hp : (all n ((all m t).foldl (push key ix) fun _ => [])).Perm
      (all m t ++ all n fun _ => []) := foldl_push_perm hix
  rw [all_nil, List.append_nil] at hp
  exact hp

theorem foldl_push_placed (ht : ∀ i < n, ∀ b ∈ t i, ix (key b) = i) :
    ∀ i < n, ∀ b ∈ l.foldl (push key ix) t i, ix (key b) = i := by
  induction l generalizing t with
  | nil => exact ht
  | cons c l ih =>
    apply ih
    intro i hi b hb
    by_cases hic : i = ix (key c)
    · subst i
      rw [push, Function.update_self] at hb
      rcases List.mem_cons.1 hb with rfl | hb
      · rfl
      · exact ht _ hi b hb
    · rw [push, Function.update_of_ne hic] at hb
      exact ht i hi b hb

theorem Ok.rehash {ix' : κ → Nat} (h : Ok key ix m t) (hix : ∀ k, ix' k < n) :
    Ok key ix' n (rehash key ix' m t) := by
  refine ⟨hix, ?_, ?_⟩
  · rw [rehash_eq]
    exact foldl_push_placed fun _ _ b hb => nomatch hb
  · exact (((rehash_perm hix).map key).nodup_iff).2 h.nodup

theorem Ok.find_rehash {ix' : κ → Nat} (h : Ok key ix m t) (hix : ∀ k, ix' k < n) (k : κ) :
    find key ix' (Buckets.rehash key ix' m t) k = find key ix t k :=
  h.find_congr (h.rehash hix) fun _ _ => (rehash_perm hix).mem_iff

end Buckets
