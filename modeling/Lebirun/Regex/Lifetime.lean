import Mathlib
import Lebirun.Lib.Run
import Lebirun.Regex.Handles

namespace Lebirun.Regex
set_option autoImplicit true

open Machine

/-- The address space a task is filling with copies. -/
def Pc.cloneDst : Pc → Option Nat
  | .releasing _ next => next.cloneDst
  | .destroying _ next => next.cloneDst
  | .cloneCount _ dst => some dst
  | .cloneAlloc _ dst _ => some dst
  | .cloneSnapshot _ dst _ => some dst
  | .cloning _ dst _ => some dst
  | .inserting _ dst _ _ _ => some dst
  | .unwinding dst _ => some dst
  | .cloneFailed dst => some dst
  | _ => none

def Sys.token (s : Sys τ) (h : Nat) : Nat := (s.handle h).token

def Sys.owner (s : Sys τ) (h : Nat) : Nat := (s.handle h).ownerCr3

/-- What a handle is looked up by. -/
def Sys.key (s : Sys τ) (h : Nat) : Nat × Nat := (s.token h, s.owner h)

/-- What a caller of `regex_clone_address_space` sees to: the destination is a new address space
that no one else fills and in which nothing is compiled until the call is over. And
`regex_next_token` has not run through all its values. -/
def Legal (s : Sys τ) : Event τ → Prop
  | .regcomp _ ownerCr3 _ => ∀ t, (s.pc t).cloneDst ≠ some ownerCr3
  | .compiled _ _ => s.nextToken ≠ 0
  | .cloneSpace _ _ dst => (∀ h ∈ s.list, s.owner h ≠ dst) ∧
      ∀ t, (s.pc t).cloneDst ≠ some dst ∧ ∀ h ∈ (s.pc t).unlisted, s.owner h ≠ dst
  | _ => True

instance [Fintype τ] (s : Sys τ) : DecidablePred (Legal s)
  | .regcomp _ ownerCr3 _ => inferInstanceAs (Decidable (∀ t, (s.pc t).cloneDst ≠ some ownerCr3))
  | .compiled _ _ => inferInstanceAs (Decidable (s.nextToken ≠ 0))
  | .cloneSpace _ _ dst => inferInstanceAs (Decidable ((∀ h ∈ s.list, s.owner h ≠ dst) ∧
      ∀ t, (s.pc t).cloneDst ≠ some dst ∧ ∀ h ∈ (s.pc t).unlisted, s.owner h ≠ dst))
  | .stored _ _ | .regexec _ _ _ | .matched _ | .regfree _ _ _ | .releaseSpace _ _
  | .allocated _ _ | .go _ => inferInstanceAs (Decidable True)

/-- The tokens a clone has still to put on the list are free in its destination. -/
def Sys.Reserved (s : Sys τ) : Pc → Prop
  | .releasing _ next => s.Reserved next
  | .destroying _ next => s.Reserved next
  | .cloneCount _ dst => ∀ g ∈ s.list, s.owner g ≠ dst
  | .cloneAlloc _ dst _ => ∀ g ∈ s.list, s.owner g ≠ dst
  | .cloneSnapshot _ dst _ => ∀ g ∈ s.list, s.owner g ≠ dst
  | .cloneFailed dst => ∀ g ∈ s.list, s.owner g ≠ dst
  | .cloning _ dst todo => (todo.map s.token).Nodup ∧
      ∀ g ∈ s.list, s.owner g = dst → s.token g ∉ todo.map s.token
  | .inserting _ dst clone h todo => s.key clone = (s.token h, dst) ∧
      ((h :: todo).map s.token).Nodup ∧
      ∀ g ∈ s.list, s.owner g = dst → s.token g ∉ (h :: todo).map s.token
  | _ => True

/-- One more than the last token handed out. -/
def Sys.tokens (s : Sys τ) : Nat := if s.nextToken = 0 then 2 ^ 64 else s.nextToken

structure Keys (s : Sys τ) : Prop where
  nodup : (s.list.map s.key).Nodup
  next : s.nextToken < 2 ^ 64
  token : ∀ h, s.token h < s.tokens
  reserved : ∀ t, s.Reserved (s.pc t)
  apart : ∀ t t', t ≠ t' → ∀ d, (s.pc t).cloneDst = some d → (s.pc t').cloneDst ≠ some d
  created : ∀ t t' h, s.pc t = .created h → (s.pc t').cloneDst ≠ some (s.owner h)

theorem token_of_key {s s' : Sys τ} (h : s'.key g = s.key g) : s'.token g = s.token g :=
  congrArg Prod.fst h

theorem owner_of_key {s s' : Sys τ} (h : s'.key g = s.key g) : s'.owner g = s.owner g :=
  congrArg Prod.snd h

theorem key_of_handle {s s' : Sys τ} (h : (s'.handle g).token = (s.handle g).token ∧
    (s'.handle g).ownerCr3 = (s.handle g).ownerCr3) : s'.key g = s.key g :=
  Prod.ext h.1 h.2

section
variable {s s' : Sys τ} {p : Pc}

theorem clear_mono (hlist : ∀ g ∈ s'.list, s'.owner g = dst → g ∈ s.list)
    (hkey : ∀ g ∈ s.list, s'.key g = s.key g) (hfree : ∀ g ∈ s.list, s.owner g ≠ dst) :
    ∀ g ∈ s'.list, s'.owner g ≠ dst := by
  intro g hg ho
  have hmem := hlist g hg ho
  exact hfree g hmem ((owner_of_key (hkey g hmem)).symm.trans ho)

theorem todo_mono {todo : List Nat} (hlist : ∀ g ∈ s'.list, s'.owner g = dst → g ∈ s.list)
    (hkey : ∀ g, g ∈ s.list ∨ g ∈ todo → s'.key g = s.key g)
    (hfree : (todo.map s.token).Nodup ∧
      ∀ g ∈ s.list, s.owner g = dst → s.token g ∉ todo.map s.token) :
    (todo.map s'.token).Nodup ∧
      ∀ g ∈ s'.list, s'.owner g = dst → s'.token g ∉ todo.map s'.token := by
  have hmap : todo.map s'.token = todo.map s.token := by
    apply List.map_congr_left
    intro g hg
    exact token_of_key (hkey g (.inr hg))
  rw [hmap]
  constructor
  · exact hfree.1
  · intro g hg ho
    have hmem := hlist g hg ho
    have hk := hkey g (.inl hmem)
    rw [token_of_key hk]
    exact hfree.2 g hmem ((owner_of_key hk).symm.trans ho)

/-- Tokens stay reserved while nothing with the owner in question comes to the list. -/
theorem Sys.Reserved.mono (h : s.Reserved p) (hr : p.Resumes)
    (hlist : ∀ g ∈ s'.list, p.cloneDst = some (s'.owner g) → g ∈ s.list)
    (hkey : ∀ g, g ∈ s.list ∨ g ∈ p.holds ∨ g ∈ p.unlisted → s'.key g = s.key g) :
    s'.Reserved p := by
  have hin : ∀ dst, p.cloneDst = some dst → ∀ g ∈ s'.list, s'.owner g = dst → g ∈ s.list := by
    intro dst hd g hg ho
    exact hlist g hg (hd.trans (congrArg some ho.symm))
  have hsame : ∀ g ∈ s.list, s'.key g = s.key g := fun g hg => hkey g (.inl hg)
  induction p with
  | releasing x next ih =>
    apply ih h hr.2 hlist _ hin
    intro g hg
    rw [hr.1] at hg
    rcases hg with hg | hg | hg
    · exact hkey g (.inl hg)
    · exact hkey g (.inr (.inl (List.mem_cons_of_mem _ hg)))
    · cases hg
  | destroying l next ih =>
    apply ih h hr.2 hlist _ hin
    intro g hg
    rw [hr.1] at hg
    rcases hg with hg | hg | hg
    · exact hkey g (.inl hg)
    · exact hkey g (.inr (.inl hg))
    · cases hg
  | cloneCount src dst => exact clear_mono (hin dst rfl) hsame h
  | cloneAlloc src dst n => exact clear_mono (hin dst rfl) hsame h
  | cloneSnapshot src dst n => exact clear_mono (hin dst rfl) hsame h
  | cloneFailed dst => exact clear_mono (hin dst rfl) hsame h
  | cloning src dst todo =>
    apply todo_mono (hin dst rfl) _ h
    intro g hg
    exact hkey g (hg.imp_right .inl)
  | inserting src dst clone x todo =>
    have htodo := todo_mono (hin dst rfl) (fun g hg => hkey g (hg.imp_right .inl)) h.2
    refine ⟨?_, htodo⟩
    rw [hkey clone (.inr (.inr (List.mem_singleton_self clone))), h.1,
      token_of_key (hkey x (.inr (.inl List.mem_cons_self)))]
  | _ => trivial

theorem Sys.Reserved.same (h : s.Reserved p) (hr : p.Resumes) (hsub : s'.list.Sublist s.list)
    (hsame : ∀ g, s'.key g = s.key g) : s'.Reserved p :=
  h.mono hr (fun _ hg _ => hsub.subset hg) (fun g _ => hsame g)

theorem andDestroy_reserved (h : Nat) (d : Bool) (hp : s.Reserved p) :
    s.Reserved (andDestroy h d p) := by
  rw [andDestroy]
  split
  · exact hp
  · exact hp

theorem andDestroy_cloneDst (h : Nat) (d : Bool) (p : Pc) :
    (andDestroy h d p).cloneDst = p.cloneDst := by
  rw [andDestroy]
  split <;> rfl

/-- Tokens of one owner differ. -/
theorem Keys.live_nodup (hk : Keys s) (src : Nat) : ((s.live src).map s.token).Nodup := by
  have hsub : ((s.live src).map s.key).Nodup := hk.nodup.sublist (List.filter_sublist.map _)
  have hmap : (s.live src).map s.key = ((s.live src).map s.token).map fun x => (x, src) := by
    rw [List.map_map]
    apply List.map_congr_left
    intro g hg
    exact Prod.ext rfl (live_mem hg).2.2
  rw [hmap] at hsub
  exact hsub.of_map _

theorem tokens_pos (s : Sys τ) : 0 < s.tokens := by
  rw [Sys.tokens]
  split
  · exact Nat.two_pow_pos 64
  · rename_i h
    exact Nat.pos_of_ne_zero h

theorem remove_frame (s : Sys τ) (h : Nat) : (regexHandleRemove s h).2.pc = s.pc ∧
    (regexHandleRemove s h).2.list.Sublist s.list ∧
    (∀ g, (regexHandleRemove s h).2.key g = s.key g) ∧
    (regexHandleRemove s h).2.nextToken = s.nextToken := by
  rw [regexHandleRemove]
  split
  · exact ⟨rfl, .refl _, fun _ => rfl, rfl⟩
  · refine ⟨rfl, List.erase_sublist, ?_, rfl⟩
    intro g
    apply key_of_handle
    dsimp only
    rw [modify_handle]
    split
    · rename_i hg
      rw [hg]
      exact ⟨rfl, rfl⟩
    · exact ⟨rfl, rfl⟩

theorem modify_key (s : Sys τ) (h : Nat) (f : Handle → Handle)
    (hf : ∀ x, (f x).token = x.token ∧ (f x).ownerCr3 = x.ownerCr3) (g : Nat) :
    (s.modify h f).key g = s.key g := by
  apply key_of_handle
  rw [modify_handle]
  split
  · rename_i hg
    rw [hg]
    exact hf _
  · exact ⟨rfl, rfl⟩

theorem releaseSpace_key (s : Sys τ) (owner g : Nat) :
    (regexReleaseAddressSpace s owner).2.key g = s.key g := by
  apply key_of_handle
  rw [regexReleaseAddressSpace]
  dsimp only
  split
  · exact ⟨rfl, rfl⟩
  · exact ⟨rfl, rfl⟩

theorem releaseSpace_clear (s : Sys τ) (owner : Nat) :
    ∀ g ∈ (regexReleaseAddressSpace s owner).2.list,
      (regexReleaseAddressSpace s owner).2.owner g ≠ owner := by
  intro g hg
  rw [owner_of_key (releaseSpace_key s owner g)]
  simpa [Sys.owner] using (List.mem_filter.1 hg).2

theorem regexInit_keys : Keys (regexInit : Sys τ) where
  nodup := List.nodup_nil
  next := by
    show 1 < 2 ^ 64
    omega
  token := fun _ => Nat.zero_lt_one
  reserved := fun _ => trivial
  apart := nofun
  created := nofun

def Event.task : Event τ → τ
  | .regcomp t _ _ => t
  | .compiled t _ => t
  | .stored t _ => t
  | .regexec t _ _ => t
  | .matched t => t
  | .regfree t _ _ => t
  | .releaseSpace t _ => t
  | .cloneSpace t _ _ => t
  | .allocated t _ => t
  | .go t => t

/-- A clone leaves every handle outside its destination on the list, under its key. -/
def KeepsOthers (s s' : Sys τ) (dst : Nat) : Prop :=
  ∀ h ∈ s.list, s.owner h ≠ dst → h ∈ s'.list ∧ s'.key h = s.key h

theorem KeepsOthers.of_eq (hlist : s'.list = s.list) (hkey : ∀ g, s'.key g = s.key g) :
    KeepsOthers s s' dst := by
  intro h hh _
  rw [hlist]
  exact ⟨hh, hkey h⟩

variable [DecidableEq τ] {t : τ}

/-- A removed handle stays removed. -/
theorem regexStep_removed (e : Event τ) (hh : h < s.fresh) (hrem : (s.handle h).removed = true) :
    h < (regexStep s e).fresh ∧ ((regexStep s e).handle h).removed = true := by
  have hmod : ∀ g f, (∀ x : Handle, x.removed = true → (f x).removed = true) →
      ((s.modify g f).handle h).removed = true := by
    intro g f hf
    rw [modify_handle]
    split
    · rename_i hg
      exact hf _ (hg ▸ hrem)
    · exact hrem
  have hspace : ∀ owner, ((regexReleaseAddressSpace s owner).2.handle h).removed = true := by
    intro owner
    simp only [regexReleaseAddressSpace]
    split
    · rfl
    · exact hrem
  have hcreate : ∀ x, h < (s.create x).fresh ∧ ((s.create x).handle h).removed = true := by
    intro x
    refine ⟨Nat.lt_succ_of_lt hh, ?_⟩
    rw [Sys.create]
    dsimp only
    rw [Function.update_of_ne hh.ne]
    exact hrem
  have hwith : ∀ t token owner f, h < (withHandle s t token owner f).fresh ∧
      ((withHandle s t token owner f).handle h).removed = true := by
    intro t token owner f
    rw [withHandle]
    split
    · rename_i ha
      rw [acquire_none ha]
      exact ⟨hh, hrem⟩
    · rename_i ha
      obtain ⟨-, -, -, -, rfl⟩ := acquire_some ha
      exact ⟨hh, hmod _ (fun x => { x with users := x.users + 1 }) fun _ hx => hx⟩
  cases e with
  | go t =>
    rw [regexStep, goStep]
    split
    · rename_i g _
      rw [regexHandleRemove]
      split
      · exact ⟨hh, hrem⟩
      · exact ⟨hh, hmod g (fun x => { x with removed := true }) fun _ _ => rfl⟩
    · rename_i g _ _
      exact ⟨hh, hmod g (fun x => { x with users := x.users - 1 }) fun _ hx => hx⟩
    · exact ⟨hh, hrem⟩
    · rename_i g _ _ _
      exact ⟨hh, hmod g (fun x => { x with destroys := x.destroys + 1 }) fun _ hx => hx⟩
    · exact ⟨hh, hrem⟩
    · rename_i src dst capacity _
      split
      · obtain ⟨h1, -, h3, -, -⟩ := cloneTake_spec (s.live src) s
        exact ⟨h3 ▸ hh, (h1 h).2.1.trans hrem⟩
      · exact ⟨hh, hrem⟩
    · exact ⟨hh, hrem⟩
    · exact ⟨hh, hrem⟩
    · exact ⟨hh, hspace _⟩
    · exact ⟨hh, hrem⟩
    · exact ⟨hh, hrem⟩
    · exact ⟨hh, hrem⟩
  | regcomp t owner allocated =>
    rw [regexStep]
    split
    · exact hcreate _
    · exact ⟨hh, hrem⟩
  | compiled t ok =>
    rw [regexStep]
    split
    · rename_i g _
      split
      · exact ⟨hh, hmod g (fun x => { x with token := (regexAllocateToken s.nextToken).1 })
          fun _ hx => hx⟩
      · exact ⟨hh, hrem⟩
    · exact ⟨hh, hrem⟩
  | stored t ok =>
    rw [regexStep]
    split
    · exact ⟨hh, hrem⟩
    · exact ⟨hh, hrem⟩
  | regexec t token owner =>
    rw [regexStep]
    split
    · exact hwith ..
    · exact ⟨hh, hrem⟩
  | matched t =>
    rw [regexStep]
    split
    · exact ⟨hh, hrem⟩
    · exact ⟨hh, hrem⟩
  | regfree t token owner =>
    rw [regexStep]
    split
    · exact hwith ..
    · exact ⟨hh, hrem⟩
  | releaseSpace t owner =>
    rw [regexStep]
    split
    · exact ⟨hh, hspace owner⟩
    · exact ⟨hh, hrem⟩
  | cloneSpace t src dst =>
    rw [regexStep]
    split
    · exact ⟨hh, hrem⟩
    · exact ⟨hh, hrem⟩
  | allocated t ok =>
    rw [regexStep]
    split
    · exact ⟨hh, hrem⟩
    · split
      · exact hcreate _
      · exact ⟨hh, hrem⟩
    · exact ⟨hh, hrem⟩

theorem run_removed (es : List (Event τ)) (hh : h < s.fresh) (hrem : (s.handle h).removed = true) :
    ((es.foldl regexStep s).handle h).removed = true := by
  induction es generalizing s with
  | nil => exact hrem
  | cons e es ih =>
    obtain ⟨h1, h2⟩ := regexStep_removed e hh hrem
    exact ih h1 h2

theorem KeepsOthers.goto (h : KeepsOthers s s' dst) : KeepsOthers s (s'.goto t p) dst := h

theorem goStep_keepsOthers (hd : (s.pc t).cloneDst = some dst) :
    KeepsOthers s (goStep s t) dst := by
  rw [goStep]
  split
  · rename_i hpc
    rw [hpc] at hd
    cases hd
  · rename_i h next _
    apply KeepsOthers.goto
    apply KeepsOthers.of_eq
    · rfl
    · exact modify_key s h (fun x => { x with users := x.users - 1 }) fun _ => ⟨rfl, rfl⟩
  · exact .of_eq rfl fun _ => rfl
  · rename_i h hs next _
    apply KeepsOthers.goto
    apply KeepsOthers.of_eq
    · rfl
    · exact modify_key s h (fun x => { x with destroys := x.destroys + 1 }) fun _ => ⟨rfl, rfl⟩
  · exact .of_eq rfl fun _ => rfl
  · rename_i src _ _ _
    split
    · obtain ⟨h1, h2, -⟩ := cloneTake_spec (s.live src) s
      exact .of_eq h2 fun g => key_of_handle ⟨(h1 g).2.2.2.1, (h1 g).2.2.2.2⟩
    · exact .of_eq rfl fun _ => rfl
  · exact .of_eq rfl fun _ => rfl
  · intro h hh _
    exact ⟨List.mem_cons_of_mem _ hh, rfl⟩
  · rename_i d hpc
    rw [hpc] at hd
    cases hd
    intro h hh ho
    refine ⟨List.mem_filter.2 ⟨hh, ?_⟩, releaseSpace_key s dst h⟩
    simpa [Sys.owner] using ho
  · exact .of_eq rfl fun _ => rfl
  · exact .of_eq rfl fun _ => rfl
  · exact .of_eq rfl fun _ => rfl

variable [Fintype τ]

/-- A step of task `t`: it keeps to its own handle and to the address space it fills. -/
theorem Keys.step (hk : Keys s) (hl : Life s) (hr : ∀ t, (s.pc t).Resumes)
    (hpc : s'.pc = Function.update s.pc t p) (hnodup : (s'.list.map s'.key).Nodup)
    (hnext : s'.nextToken < 2 ^ 64) (htoken : ∀ g, s'.token g < s'.tokens)
    (hlist : ∀ g ∈ s'.list, g ∈ s.list ∨ ∀ t' ≠ t, (s.pc t').cloneDst ≠ some (s'.owner g))
    (hkey : ∀ g < s.fresh, g ∉ (s.pc t).unlisted → s'.key g = s.key g)
    (hown : ∀ g < s.fresh, s'.owner g = s.owner g)
    (hself : s'.Reserved p)
    (hdst : ∀ d, p.cloneDst = some d → (s.pc t).cloneDst = some d ∨
      ∀ t', (s.pc t').cloneDst ≠ some d ∧ ∀ h, s.pc t' = .created h → s.owner h ≠ d)
    (hcreated : ∀ h, p = .created h → p.cloneDst = none ∧
      ∀ t', (s.pc t').cloneDst ≠ some (s'.owner h)) : Keys s' := by
  have hlt : ∀ t' g, g ∈ (s.pc t').unlisted → g < s.fresh := by
    intro t' g hg
    by_contra hge
    exact (hl.not_fresh t' (Nat.not_lt.1 hge)).2.2 hg
  have hpc_self : s'.pc t = p := by rw [hpc, Function.update_self]
  have hpc_other : ∀ t' ≠ t, s'.pc t' = s.pc t' := by
    intro t' hne
    rw [hpc, Function.update_of_ne hne]
  -- a task that fills `d` after the step and is not `t` did so before
  have hnew : ∀ d, p.cloneDst = some d → ∀ t' ≠ t, (s.pc t').cloneDst ≠ some d := by
    intro d hd t' hne
    rcases hdst d hd with h | h
    · exact hk.apart t t' hne.symm d h
    · exact (h t').1
  constructor
  · exact hnodup
  · exact hnext
  · exact htoken
  · intro t'
    by_cases hne : t' = t
    · rw [hne, hpc_self]
      exact hself
    · rw [hpc_other t' hne]
      apply (hk.reserved t').mono (hr t')
      · intro g hg hd
        rcases hlist g hg with h | h
        · exact h
        · exact absurd hd (h t' hne)
      · intro g hg
        have hout : g < s.fresh ∧ g ∉ (s.pc t).unlisted := by
          rcases hg with hg | hg | hg
          · exact ⟨hl.listed_lt hg, fun hu => (hl.alone t g hu).1 hg⟩
          · exact ⟨hl.lt_fresh hg, fun hu => (hl.others (Ne.symm hne) hu).1 hg⟩
          · exact ⟨hlt t' g hg, (hl.others hne hg).2⟩
        exact hkey g hout.1 hout.2
  · intro t1 t2 hne d h1 h2
    by_cases e1 : t1 = t
    · subst e1
      rw [hpc_self] at h1
      rw [hpc_other t2 hne.symm] at h2
      exact hnew d h1 t2 hne.symm h2
    · rw [hpc_other t1 e1] at h1
      by_cases e2 : t2 = t
      · subst e2
        rw [hpc_self] at h2
        exact hnew d h2 t1 e1 h1
      · rw [hpc_other t2 e2] at h2
        exact hk.apart t1 t2 hne d h1 h2
  · intro t1 t2 h h1 h2
    by_cases e1 : t1 = t
    · subst e1
      rw [hpc_self] at h1
      obtain ⟨hn, ho⟩ := hcreated h h1
      by_cases e2 : t2 = t1
      · rw [e2, hpc_self, hn] at h2
        cases h2
      · rw [hpc_other t2 e2] at h2
        exact ho t2 h2
    · rw [hpc_other t1 e1] at h1
      have hfresh : h < s.fresh := hlt t1 h (by rw [h1]; exact List.mem_singleton_self h)
      rw [hown h hfresh] at h2
      by_cases e2 : t2 = t
      · subst e2
        rw [hpc_self] at h2
        rcases hdst _ h2 with hd | hd
        · exact hk.created t1 t2 h h1 hd
        · exact (hd t1).2 h h1 rfl
      · rw [hpc_other t2 e2] at h2
        exact hk.created t1 t2 h h1 h2

/-- Nothing comes to the list. -/
theorem Keys.move (hk : Keys s) (hl : Life s) (hr : ∀ t, (s.pc t).Resumes)
    (hpc : s'.pc = Function.update s.pc t p) (hsub : s'.list.Sublist s.list)
    (hsame : ∀ g, s'.key g = s.key g) (hnext : s'.nextToken = s.nextToken)
    (hdst : ∀ d, p.cloneDst = some d → (s.pc t).cloneDst = some d) (hunl : p.unlisted = [])
    (hself : s'.Reserved p) : Keys s' := by
  have hkeys : s'.key = s.key := funext hsame
  have htokens : s'.tokens = s.tokens := by
    rw [Sys.tokens, hnext]
    rfl
  apply hk.step hl hr hpc
  · rw [hkeys]
    exact hk.nodup.sublist (hsub.map _)
  · rw [hnext]
    exact hk.next
  · intro g
    rw [htokens, token_of_key (hsame g)]
    exact hk.token g
  · intro g hg
    exact .inl (hsub.subset hg)
  · intro g _ _
    exact hsame g
  · intro g _
    exact owner_of_key (hsame g)
  · exact hself
  · intro d hd
    exact .inl (hdst d hd)
  · rintro h rfl
    cases hunl

theorem Keys.goto (hk : Keys s) (hl : Life s) (hr : ∀ t, (s.pc t).Resumes)
    (hdst : ∀ d, p.cloneDst = some d → (s.pc t).cloneDst = some d) (hunl : p.unlisted = [])
    (hself : s.Reserved p) (hp : p.Resumes) : Keys (s.goto t p) :=
  hk.move hl hr rfl (.refl _) (fun _ => rfl) rfl hdst hunl
    (hself.same hp (.refl _) (fun _ => rfl))

theorem Keys.snapshot (hk : Keys s) (hl : Life s) (hr : ∀ t, (s.pc t).Resumes)
    (hpc : s.pc t = .cloneSnapshot src dst capacity) :
    Keys ((cloneTake s (s.live src)).goto t (.cloning src dst (s.live src))) := by
  obtain ⟨h1, h2, h3, h4, h5⟩ := cloneTake_spec (s.live src) s
  have hsame : ∀ g, ((cloneTake s (s.live src)).goto t (.cloning src dst (s.live src))).key g =
      s.key g := fun g => key_of_handle ⟨(h1 g).2.2.2.1, (h1 g).2.2.2.2⟩
  have hfree := hk.reserved t
  rw [hpc] at hfree
  have hres : s.Reserved (.cloning src dst (s.live src)) :=
    ⟨hk.live_nodup src, fun g hg ho => absurd ho (hfree g hg)⟩
  have hsub : ((cloneTake s (s.live src)).goto t (.cloning src dst (s.live src))).list.Sublist
      s.list := by
    rw [goto_list, h2]
  apply hk.move hl hr (t := t) (p := .cloning src dst (s.live src))
  · rw [goto_pc, h5]
  · exact hsub
  · exact hsame
  · exact h4
  · intro d hd
    rw [hpc]
    exact hd
  · rfl
  · exact hres.same trivial hsub hsame

/-- A copy goes on the list under the token it was made for. -/
theorem Keys.insert (hk : Keys s) (hl : Life s) (hr : ∀ t, (s.pc t).Resumes)
    (hpc : s.pc t = .inserting src dst clone h todo) :
    Keys ({ s with list := clone :: s.list }.goto t (.releasing h (.cloning src dst todo))) := by
  have hres := hk.reserved t
  rw [hpc] at hres
  obtain ⟨hclone, hnodup, hfree⟩ := hres
  rw [List.map_cons, List.nodup_cons] at hnodup
  have htoken : s.token clone = s.token h := congrArg Prod.fst hclone
  have howner : s.owner clone = dst := congrArg Prod.snd hclone
  have hnot : s.key clone ∉ s.list.map s.key := by
    intro hmem
    obtain ⟨g, hg, hkey⟩ := List.mem_map.1 hmem
    rw [hclone] at hkey
    apply hfree g hg (congrArg Prod.snd hkey)
    rw [List.map_cons]
    exact List.mem_cons.2 (.inl (congrArg Prod.fst hkey))
  apply hk.step hl hr (t := t) (p := .releasing h (.cloning src dst todo)) rfl
  · exact List.nodup_cons.2 ⟨hnot, hk.nodup⟩
  · exact hk.next
  · exact hk.token
  · intro g hg
    rcases List.mem_cons.1 hg with rfl | hg
    · right
      intro t' hne
      apply hk.apart t t' hne.symm
      rw [hpc]
      exact congrArg some howner.symm
    · exact .inl hg
  · exact fun g _ _ => rfl
  · exact fun g _ => rfl
  · refine ⟨hnodup.2, ?_⟩
    intro g hg ho
    rcases List.mem_cons.1 hg with rfl | hg
    · intro hmem
      apply hnodup.1
      rw [← htoken]
      exact hmem
    · intro hmem
      exact hfree g hg ho (List.mem_cons_of_mem _ hmem)
  · intro d hd
    rw [hpc]
    exact .inl hd
  · nofun

theorem Keys.publish (hk : Keys s) (hl : Life s) (hr : ∀ t, (s.pc t).Resumes)
    (hpc : s.pc t = .created h) (hn : s.nextToken ≠ 0) :
    Keys ((regexHandlePublish s h).goto t (.published h)) := by
  have halloc : regexAllocateToken s.nextToken = (s.nextToken, (s.nextToken + 1) % 2 ^ 64) :=
    if_neg hn
  have hhandle : ∀ g, ((regexHandlePublish s h).goto t (.published h)).handle g =
      if g = h then { s.handle h with token := s.nextToken } else s.handle g := by
    intro g
    rw [goto_handle, regexHandlePublish, halloc]
    exact modify_handle s h (fun x => { x with token := s.nextToken }) g
  have howner : ∀ g, ((regexHandlePublish s h).goto t (.published h)).owner g = s.owner g := by
    intro g
    rw [Sys.owner, hhandle]
    split
    · rename_i hg
      rw [hg]
      rfl
    · rfl
  have hkey : ∀ g ≠ h, ((regexHandlePublish s h).goto t (.published h)).key g = s.key g := by
    intro g hg
    apply key_of_handle
    rw [hhandle, if_neg hg]
    exact ⟨rfl, rfl⟩
  have htoken : ((regexHandlePublish s h).goto t (.published h)).token h = s.nextToken := by
    rw [Sys.token, hhandle, if_pos rfl]
  have hnext : ((regexHandlePublish s h).goto t (.published h)).nextToken =
      (s.nextToken + 1) % 2 ^ 64 := by
    show (regexAllocateToken s.nextToken).2 = _
    rw [halloc]
  have htokens : s.tokens = s.nextToken := if_neg hn
  have hgrow : s.nextToken < ((regexHandlePublish s h).goto t (.published h)).tokens := by
    have hlt := hk.next
    rw [Sys.tokens, hnext]
    split
    · exact hlt
    · omega
  have hnot : h ∉ s.list := (hl.alone t h (by rw [hpc]; exact List.mem_singleton_self h)).1
  apply hk.step hl hr (t := t) (p := .published h) rfl
  · have hmap : s.list.map ((regexHandlePublish s h).goto t (.published h)).key =
        s.list.map s.key := by
      apply List.map_congr_left
      intro g hg
      exact hkey g fun hgh => hnot (hgh ▸ hg)
    show (List.map _ (h :: s.list)).Nodup
    rw [List.map_cons, hmap]
    apply List.nodup_cons.2 ⟨?_, hk.nodup⟩
    intro hmem
    obtain ⟨g, hg, hkeys⟩ := List.mem_map.1 hmem
    have heq : s.token g = s.nextToken := (congrArg Prod.fst hkeys).trans htoken
    have hlt := hk.token g
    rw [heq, htokens] at hlt
    exact Nat.lt_irrefl _ hlt
  · rw [hnext]
    exact Nat.mod_lt _ (Nat.two_pow_pos 64)
  · intro g
    by_cases hg : g = h
    · rw [hg, htoken]
      exact hgrow
    · rw [token_of_key (hkey g hg)]
      have hlt := hk.token g
      rw [htokens] at hlt
      exact hlt.trans hgrow
  · intro g hg
    rcases List.mem_cons.1 hg with rfl | hg
    · right
      intro t' _
      rw [howner]
      exact hk.created t t' g hpc
    · exact .inl hg
  · intro g _ hg
    rw [hpc] at hg
    exact hkey g fun hgh => hg (List.mem_singleton.2 hgh)
  · exact fun g _ => howner g
  · trivial
  · nofun
  · nofun

theorem Keys.create (hk : Keys s) (hl : Life s) (hr : ∀ t, (s.pc t).Resumes) {x : Handle}
    (hx : x.token < s.tokens) (hself : ((s.create x).goto t p).Reserved p)
    (hdst : ∀ d, p.cloneDst = some d → (s.pc t).cloneDst = some d)
    (hcreated : ∀ h, p = .created h → h = s.fresh ∧ p.cloneDst = none ∧
      ∀ t', (s.pc t').cloneDst ≠ some x.ownerCr3) : Keys ((s.create x).goto t p) := by
  have hhandle : ∀ g, ((s.create x).goto t p).handle g = if g = s.fresh then x else s.handle g :=
    fun g => Function.update_apply ..
  have hkey : ∀ g < s.fresh, ((s.create x).goto t p).key g = s.key g := by
    intro g hg
    apply key_of_handle
    rw [hhandle, if_neg hg.ne]
    exact ⟨rfl, rfl⟩
  apply hk.step hl hr (t := t) (p := p) rfl
  · have hmap : s.list.map ((s.create x).goto t p).key = s.list.map s.key := by
      apply List.map_congr_left
      intro g hg
      exact hkey g (hl.listed_lt hg)
    exact hmap ▸ hk.nodup
  · exact hk.next
  · intro g
    rw [Sys.token, hhandle]
    split
    · exact hx
    · exact hk.token g
  · exact fun g hg => .inl hg
  · exact fun g hg _ => hkey g hg
  · exact fun g hg => owner_of_key (hkey g hg)
  · exact hself
  · exact fun d hd => .inl (hdst d hd)
  · intro h hp
    obtain ⟨rfl, hnone, hno⟩ := hcreated h hp
    refine ⟨hnone, ?_⟩
    rw [Sys.owner, hhandle, if_pos rfl]
    exact hno

theorem Keys.goStep (hk : Keys s) (hl : Life s) (hr : ∀ t, (s.pc t).Resumes) (t : τ) :
    Keys (goStep s t) := by
  have hres := hk.reserved t
  have ht := hr t
  rw [Regex.goStep]
  split
  · rename_i h hpc
    obtain ⟨f1, f2, f3, f4⟩ := remove_frame s h
    apply hk.move hl hr (t := t) (p := andDestroy h (regexHandleRemove s h).1 (.releasing h .idle))
    · rw [goto_pc, f1]
    · exact f2
    · exact f3
    · exact f4
    · intro d hd
      rw [andDestroy_cloneDst] at hd
      cases hd
    · exact andDestroy_unlisted h _ rfl
    · exact andDestroy_reserved h _ trivial
  · rename_i h next hpc
    rw [hpc] at hres ht
    have hsame : ∀ g, ((regexHandleRelease s h).2.goto t
        (andDestroy h (regexHandleRelease s h).1 next)).key g = s.key g :=
      modify_key s h (fun x => { x with users := x.users - 1 }) fun _ => ⟨rfl, rfl⟩
    apply hk.move hl hr (t := t) (p := andDestroy h (regexHandleRelease s h).1 next) rfl
    · exact .refl _
    · exact hsame
    · rfl
    · intro d hd
      rw [andDestroy_cloneDst] at hd
      rw [hpc]
      exact hd
    · exact andDestroy_unlisted h _ ht.1
    · apply andDestroy_reserved
      exact Sys.Reserved.same hres ht.2 (.refl _) hsame
  · rename_i next hpc
    rw [hpc] at hres ht
    exact hk.goto hl hr (fun d hd => by rw [hpc]; exact hd) ht.1 hres ht.2
  · rename_i h hs next hpc
    rw [hpc] at hres ht
    have hsame : ∀ g, ((regexHandleDestroy s h).goto t (.destroying hs next)).key g = s.key g :=
      modify_key s h (fun x => { x with destroys := x.destroys + 1 }) fun _ => ⟨rfl, rfl⟩
    apply hk.move hl hr (t := t) (p := .destroying hs next) rfl
    · exact .refl _
    · exact hsame
    · rfl
    · intro d hd
      rw [hpc]
      exact hd
    · rfl
    · exact Sys.Reserved.same (p := .destroying hs next) hres ht (.refl _) hsame
  · rename_i src dst hpc
    rw [hpc] at hres
    dsimp only
    split
    · exact hk.goto hl hr (fun _ h => by cases h) rfl trivial trivial
    · exact hk.goto hl hr (fun d hd => by rw [hpc]; exact hd) rfl hres trivial
  · rename_i src dst capacity hpc
    split
    · exact hk.snapshot hl hr hpc
    · rw [hpc] at hres
      exact hk.goto hl hr (fun d hd => by rw [hpc]; exact hd) rfl hres trivial
  · exact hk.goto hl hr (fun _ h => by cases h) rfl trivial trivial
  · rename_i src dst clone h todo hpc
    exact hk.insert hl hr hpc
  · rename_i dst hpc
    apply hk.move hl hr (t := t)
      (p := .destroying (regexReleaseAddressSpace s dst).1 (.cloneFailed dst)) rfl
    · exact List.filter_sublist
    · exact releaseSpace_key s dst
    · rfl
    · intro d hd
      rw [hpc]
      exact hd
    · rfl
    · exact releaseSpace_clear s dst
  · rename_i dst h todo hpc
    exact hk.goto hl hr (fun d hd => by rw [hpc]; exact hd) rfl trivial ⟨rfl, trivial⟩
  · exact hk.goto hl hr (fun _ h => by cases h) rfl trivial trivial
  · exact hk

theorem Keys.withHandle (hk : Keys s) (hl : Life s) (hr : ∀ t, (s.pc t).Resumes) {f : Nat → Pc}
    {a b : Nat} (hf : ∀ n, (f n).cloneDst = none ∧ (f n).unlisted = [] ∧
      ∀ s : Sys τ, s.Reserved (f n)) : Keys (withHandle s t a b f) := by
  rw [Regex.withHandle]
  split
  · rename_i ha
    rw [acquire_none ha]
    exact hk
  · rename_i n s' ha
    obtain ⟨h1, h2, h3⟩ := hf n
    obtain ⟨-, -, -, -, rfl⟩ := acquire_some ha
    apply hk.move hl hr (t := t) (p := f n) rfl
    · exact .refl _
    · exact modify_key s n (fun x => { x with users := x.users + 1 }) fun _ => ⟨rfl, rfl⟩
    · rfl
    · intro d hd
      rw [h1] at hd
      cases hd
    · exact h2
    · exact h3 _

theorem regexStep_keys (e : Event τ) (hk : Keys s) (hl : Life s) (hr : ∀ t, (s.pc t).Resumes)
    (hlegal : Legal s e) : Keys (regexStep s e) := by
  cases e with
  | regcomp t owner allocated =>
    rw [regexStep]
    split
    · apply hk.create hl hr (p := .created s.fresh)
      · exact tokens_pos s
      · trivial
      · intro d hd
        cases hd
      · intro h hh
        cases hh
        exact ⟨rfl, rfl, hlegal⟩
    · exact hk
  | compiled t ok =>
    rw [regexStep]
    split
    · rename_i h hpc
      split
      · exact hk.publish hl hr hpc hlegal
      · exact hk.goto hl hr (fun _ h => by cases h) rfl trivial trivial
    · exact hk
  | stored t ok =>
    rw [regexStep]
    split
    · split
      · exact hk.goto hl hr (fun _ h => by cases h) rfl trivial ⟨rfl, trivial⟩
      · exact hk.goto hl hr (fun _ h => by cases h) rfl trivial trivial
    · exact hk
  | regexec t token owner =>
    rw [regexStep]
    split
    · exact hk.withHandle hl hr fun n => ⟨rfl, rfl, fun _ => trivial⟩
    · exact hk
  | matched t =>
    rw [regexStep]
    split
    · exact hk.goto hl hr (fun _ h => by cases h) rfl trivial ⟨rfl, trivial⟩
    · exact hk
  | regfree t token owner =>
    rw [regexStep]
    split
    · exact hk.withHandle hl hr fun n => ⟨rfl, rfl, fun _ => trivial⟩
    · exact hk
  | releaseSpace t owner =>
    rw [regexStep]
    split
    · apply hk.move hl hr (t := t) (p := .destroying (regexReleaseAddressSpace s owner).1 .idle) rfl
      · exact List.filter_sublist
      · exact releaseSpace_key s owner
      · rfl
      · intro d hd
        cases hd
      · rfl
      · trivial
    · exact hk
  | cloneSpace t src dst =>
    rw [regexStep]
    split
    · apply hk.step hl hr (t := t) (p := .cloneCount src dst) rfl
      · exact hk.nodup
      · exact hk.next
      · exact hk.token
      · exact fun g hg => .inl hg
      · exact fun g _ _ => rfl
      · exact fun g _ => rfl
      · exact hlegal.1
      · intro d hd
        cases hd
        right
        intro t'
        refine ⟨(hlegal.2 t').1, ?_⟩
        intro h hpc
        apply (hlegal.2 t').2 h
        rw [hpc]
        exact List.mem_singleton_self h
      · intro d hd
        cases hd
    · exact hk
  | allocated t ok =>
    have hres := hk.reserved t
    rw [regexStep]
    split
    · rename_i src dst count hpc
      rw [hpc] at hres
      split
      · exact hk.goto hl hr (fun d hd => by rw [hpc]; exact hd) rfl hres trivial
      · exact hk.goto hl hr (fun d hd => by rw [hpc]; exact hd) rfl hres trivial
    · rename_i src dst h todo hpc
      have hfresh : ∀ g ∈ h :: todo, g < s.fresh := by
        intro g hg
        apply hl.lt_fresh (t := t)
        rw [hpc]
        exact hg
      rw [hpc] at hres
      split
      · have hkey : ∀ g < s.fresh, ((s.create ⟨(s.handle h).token, dst, 0, false, 0⟩).goto t
            (.inserting src dst s.fresh h todo)).key g = s.key g := by
          intro g hg
          apply key_of_handle
          rw [goto_handle, Sys.create]
          dsimp only
          rw [Function.update_of_ne hg.ne]
          exact ⟨rfl, rfl⟩
        apply hk.create hl hr
        · exact hk.token h
        · constructor
          · rw [token_of_key (hkey h (hfresh h List.mem_cons_self))]
            simp only [Sys.key, Sys.token, Sys.owner, goto_handle, Sys.create, Function.update_self]
          · apply todo_mono (s := s)
            · exact fun g hg _ => hg
            · intro g hg
              rcases hg with hg | hg
              · exact hkey g (hl.listed_lt hg)
              · exact hkey g (hfresh g hg)
            · exact hres
        · intro d hd
          rw [hpc]
          exact hd
        · intro d hd
          cases hd
      · exact hk.goto hl hr (fun d hd => by rw [hpc]; exact hd) rfl trivial ⟨rfl, trivial⟩
    · exact hk
  | go t => exact hk.goStep hl hr t

theorem regexStep_keepsOthers (e : Event τ) (hl : Life s)
    (hd : (s.pc e.task).cloneDst = some dst) : KeepsOthers s (regexStep s e) dst := by
  have hsame : KeepsOthers s s dst := .of_eq rfl fun _ => rfl
  have hidle : s.pc e.task ≠ .idle := by
    intro h
    rw [h] at hd
    cases hd
  cases e with
  | go t => exact goStep_keepsOthers hd
  | regcomp t owner allocated =>
    rw [regexStep]
    split
    · rename_i h
      exact absurd h.1 hidle
    · exact hsame
  | compiled t ok =>
    rw [regexStep]
    split
    · rename_i h hpc
      rw [Event.task, hpc] at hd
      cases hd
    · exact hsame
  | stored t ok =>
    rw [regexStep]
    split
    · exact hsame
    · exact hsame
  | regexec t token owner =>
    rw [regexStep]
    split
    · rename_i h
      exact absurd h hidle
    · exact hsame
  | matched t =>
    rw [regexStep]
    split
    · exact hsame
    · exact hsame
  | regfree t token owner =>
    rw [regexStep]
    split
    · rename_i h
      exact absurd h hidle
    · exact hsame
  | releaseSpace t owner =>
    rw [regexStep]
    split
    · rename_i h
      exact absurd h hidle
    · exact hsame
  | cloneSpace t src dst =>
    rw [regexStep]
    split
    · rename_i h
      exact absurd h.1 hidle
    · exact hsame
  | allocated t ok =>
    rw [regexStep]
    split
    · exact hsame
    · split
      · intro h hh _
        refine ⟨hh, ?_⟩
        apply key_of_handle
        rw [goto_handle, Sys.create]
        dsimp only
        rw [Function.update_of_ne (hl.listed_lt hh).ne]
        exact ⟨rfl, rfl⟩
      · exact hsame
    · exact hsame

/-- What can be said of the handles at any moment. -/
structure Lifetime (s : Sys τ) : Prop where
  once : ∀ h, (s.handle h).destroys ≤ 1
  after : ∀ h, (s.handle h).destroys = 1 ∨ (∃ t, h ∈ (s.pc t).doomed) ↔
    (s.handle h).removed = true ∧ (s.handle h).users = 0
  unlisted : ∀ h ∈ s.list, (s.handle h).removed = false
  used : ∀ t, ∀ h ∈ (s.pc t).holds, (s.handle h).destroys = 0 ∧ ∀ t', h ∉ (s.pc t').doomed

omit [DecidableEq τ] in
theorem Life.lifetime (hl : Life s) : Lifetime s where
  once := by
    intro h
    have hd := hl.dead h
    split at hd <;> omega
  after := by
    intro h
    have hd := hl.dead h
    constructor
    · intro hor
      by_contra hno
      rw [if_neg hno] at hd
      rcases hor with h1 | ⟨t, ht⟩
      · omega
      · have hpos := List.count_pos_iff.2 ht
        have hle := doomed_le_dying s t h
        omega
    · intro hyes
      rw [if_pos hyes] at hd
      by_cases h1 : (s.handle h).destroys = 1
      · exact .inl h1
      · right
        have hpos : 0 < s.dying h := by omega
        obtain ⟨t, ht⟩ := Threads.exists_pos_of_total hpos
        exact ⟨t, List.count_pos_iff.1 ht⟩
  unlisted := hl.listed
  used := by
    intro t h hh
    have hpos := hl.users_pos hh
    have hd := hl.dead h
    rw [if_neg fun hc => hpos.ne' hc.2] at hd
    refine ⟨by omega, ?_⟩
    intro t' ht'
    have hcount := List.count_pos_iff.2 ht'
    have hle := doomed_le_dying s t' h
    omega

theorem run_sound (es : List (Event τ)) : Life (es.foldl regexStep regexInit) ∧
    ∀ t, ((es.foldl regexStep (regexInit : Sys τ)).pc t).Resumes := by
  have hrun : ∀ s : Sys τ, Life s ∧ (∀ t, (s.pc t).Resumes) →
      Life (es.foldl regexStep s) ∧ ∀ t, ((es.foldl regexStep s).pc t).Resumes := by
    induction es with
    | nil => exact fun s h => h
    | cons e es ih => exact fun s h => ih _ (regexStep_sound e h)
  exact hrun regexInit ⟨regexInit_life, fun _ => trivial⟩

theorem run_keys (es : List (Event τ)) (hlegal : Along regexStep Legal (regexInit : Sys τ) es) :
    Keys (es.foldl regexStep (regexInit : Sys τ)) := by
  have hinv := hlegal.invariant
    (I := fun s : Sys τ => (Life s ∧ ∀ t, (s.pc t).Resumes) ∧ Keys s)
    (fun s e hI hle => ⟨regexStep_sound e hI.1, regexStep_keys e hI.2 hI.1.1 hI.1.2 hle⟩)
    ⟨⟨regexInit_life, fun _ => trivial⟩, regexInit_keys⟩
  exact hinv.2

def regexRun (es : List (Event τ)) : Sys τ := es.foldl regexStep regexInit

/-- Handles live as they should under any interleaving, and when every clone has an address space
of its own to fill, a key names one handle and a failed clone leaves nothing behind. -/
theorem regex_run_lifetime (es : List (Event τ)) :
    Lifetime (regexRun es) ∧
      (∀ h < (regexRun es).fresh, ((regexRun es).handle h).removed = true →
        ∀ later token owner s', regexHandleAcquire (regexRun (es ++ later)) token owner ≠
          (some h, s')) ∧
      (∀ e dst, ((regexRun es).pc e.task).cloneDst = some dst →
        KeepsOthers (regexRun es) (regexStep (regexRun es) e) dst) ∧
      (Along regexStep Legal (regexInit : Sys τ) es →
        ((regexRun es).list.map (regexRun es).key).Nodup ∧
          ∀ t dst, (regexRun es).pc t = .cloneFailed dst →
            ∀ h ∈ (regexRun es).list, (regexRun es).owner h ≠ dst) := by
  obtain ⟨hl, -⟩ := run_sound es
  refine ⟨hl.lifetime, ?_, ?_, ?_⟩
  · intro h hh hrem later token owner s' ha
    rw [regexRun, List.foldl_append] at ha
    have htrue := run_removed later hh hrem
    exact Bool.false_ne_true ((acquire_some ha).2.1.symm.trans htrue)
  · intro e dst hd
    exact regexStep_keepsOthers e hl hd
  · intro hlegal
    have hk := run_keys es hlegal
    refine ⟨hk.nodup, ?_⟩
    intro t dst hpc
    have hres := hk.reserved t
    rw [regexRun] at hpc
    rw [hpc] at hres
    exact hres

/-- Two handles of address space 1; a clone of it into 2 runs out of memory at the second. -/
def failedClone : List (Event Bool) :=
  [.regcomp false 1 true, .compiled false true, .stored false true, .go false,
    .regcomp false 1 true, .compiled false true, .stored false true, .go false,
    .cloneSpace true 1 2, .go true, .allocated true true, .go true,
    .allocated true true, .go true, .go true, .allocated true false, .go true, .go true,
    .go true, .go true]

theorem failedClone_clear :
    Along regexStep Legal regexInit failedClone ∧
      (regexRun failedClone).pc true = .cloneFailed 2 ∧ (regexRun failedClone).list = [1, 0] ∧
      ∀ h ∈ (regexRun failedClone).list, (regexRun failedClone).owner h ≠ 2 := by
  have hlegal : Along regexStep Legal regexInit failedClone := by decide
  have hpc : (regexRun failedClone).pc true = .cloneFailed 2 := by decide
  have hrun := (regex_run_lifetime failedClone).2.2.2 hlegal
  exact ⟨hlegal, hpc, by decide, hrun.2 true 2 hpc⟩

/-- The same address space is cloned twice into one destination. -/
def cloneTwice : List (Event Bool) :=
  [.regcomp false 1 true, .compiled false true, .stored false true, .go false,
    .cloneSpace true 1 2, .go true, .allocated true true, .go true,
    .allocated true true, .go true, .go true, .go true,
    .cloneSpace true 1 2, .go true, .allocated true true, .go true,
    .allocated true true, .go true]

theorem cloneTwice_same_key :
    ¬((regexRun cloneTwice).list.map (regexRun cloneTwice).key).Nodup := by
  decide

end

end Lebirun.Regex
