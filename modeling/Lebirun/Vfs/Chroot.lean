import Mathlib
import Lebirun.Vfs.Lookup

namespace Lebirun.Vfs
open Machine
set_option autoImplicit true

/-- The walk without its path text: a result, or the components before a link, its target and the
components after it. -/
def trail (fs : Fs Node) (followFinal : Bool) :
    Node → List Text → Option Node ⊕ List Text × Text × List Text
  | node, [] => .inl (some node)
  | node, comp :: rest =>
    match fs.enter node comp with
    | none => .inl none
    | some next =>
      match fs.followed followFinal rest next with
      | some target => .inr ([], target, rest)
      | none => (trail fs followFinal next rest).map id fun l => (comp :: l.1, l.2)

/-- Where a link met at `link` leads, by its components. -/
def redirectTo (link : List Text × Text × List Text) : List Text :=
  collapse ((if link.2.1.head? = some '/' then [] else link.1) ++ components link.2.1 ++ link.2.2)

theorem tailText_ne_nil (h : cs ≠ []) : tailText cs ≠ [] := by
  cases cs with
  | nil => exact absurd rfl h
  | cons c cs => simp

theorem getLast?_tailText (h : ∀ c ∈ cs, Plain c) : (tailText cs).getLast? ≠ some '/' := by
  intro hl
  obtain ⟨c, hc, hm⟩ : ∃ c ∈ cs, ∃ l, c = l ++ ['/'] ∨ c = [] := by
    induction cs with
    | nil => simp at hl
    | cons c cs ih =>
      by_cases hne : cs = []
      · subst hne
        refine ⟨c, List.mem_cons_self, ?_⟩
        by_cases hc : c = []
        · exact ⟨[], .inr hc⟩
        · simp only [tailText_cons, tailText_nil, List.append_nil] at hl
          rw [List.getLast?_cons_of_ne_nil hc] at hl
          obtain ⟨l, hl⟩ := List.getLast?_eq_some_iff.mp hl
          exact ⟨l, .inl hl⟩
      · have hl' : (tailText cs).getLast? = some '/' := by
          rw [tailText_cons, ← List.cons_append,
            List.getLast?_append_of_ne_nil _ (tailText_ne_nil hne)] at hl
          exact hl
        obtain ⟨c', hc', h'⟩ := ih (fun x hx => h x (List.mem_cons_of_mem _ hx)) hl'
        exact ⟨c', List.mem_cons_of_mem _ hc', h'⟩
  obtain ⟨l, rfl | rfl⟩ := hm
  · exact (h _ hc).2.1 (by simp)
  · exact (h _ hc).1 rfl

theorem vfsBuildSymlinkPath_render (hp : ∀ c ∈ pre, Plain c) (hr : ∀ c ∈ rest, Plain c) :
    vfsBuildSymlinkPath (render pre) target rest = render (redirectTo (pre, target, rest)) := by
  unfold vfsBuildSymlinkPath redirectTo
  by_cases ht : target.head? = some '/'
  · obtain ⟨t, rfl⟩ : ∃ t, target = '/' :: t := by
      cases target with
      | nil => cases ht
      | cons x t =>
        cases ht
        exact ⟨t, rfl⟩
    simp only [List.head?_cons, if_true, List.nil_append, vfsNormalizePath, List.cons_append]
    rw [← List.cons_append, components_tailText _ (Plain.run hr)]
  · simp only [ht, if_false]
    by_cases hpre : pre = []
    · subst hpre
      simp only [render, if_true, List.getLast?_singleton, vfsNormalizePath, List.cons_append,
        List.nil_append, List.head?_cons, components_slash, components_tailText _ (Plain.run hr)]
    · have hhead : (tailText pre ++ ['/'] ++ target ++ tailText rest).head? = some '/' := by
        cases pre with
        | nil => exact absurd rfl hpre
        | cons c pre => simp
      rw [render_of_ne hpre, if_neg (getLast?_tailText hp), vfsNormalizePath, if_pos hhead]
      have hsplit : tailText pre ++ ['/'] ++ target ++ tailText rest =
          tailText pre ++ '/' :: (target ++ tailText rest) := by simp
      have hc : components (tailText pre) = pre := by
        simpa [components, scan, addComponent] using components_tailText [] (Plain.run hp)
      rw [hsplit, components_append, components_tailText _ (Plain.run hr), hc, List.append_assoc]

theorem extendPath_render (hp : ∀ c ∈ pre, Plain c) :
    extendPath (render pre) comp = render (pre ++ [comp]) := by
  unfold extendPath
  cases pre with
  | nil => simp [render]
  | cons c pre =>
    have hc := (hp c List.mem_cons_self).1
    obtain ⟨x, c, rfl⟩ := List.exists_cons_of_ne_nil hc
    rw [render_cons, if_pos (by simp), render_of_ne (by simp)]
    simp [tailText_append]

/-- The walk is the trail with its texts. -/
theorem walk_eq_trail (hp : ∀ c ∈ pre, Plain c) (hc : ∀ c ∈ comps, Plain c) :
    walk fs followFinal node (render pre) comps =
      (trail fs followFinal node comps).map id fun l => render (redirectTo (pre ++ l.1, l.2)) := by
  induction comps generalizing node pre with
  | nil => rfl
  | cons comp rest ih =>
    obtain ⟨hcomp, hrest⟩ := List.forall_mem_cons.mp hc
    rw [walk, if_neg hcomp.2.2.1, if_neg hcomp.2.2.2, trail]
    cases fs.enter node comp with
    | none => rfl
    | some next =>
      dsimp only
      cases fs.followed followFinal rest next with
      | some target => simp [vfsBuildSymlinkPath_render hp hrest]
      | none =>
        have hpre : ∀ c ∈ pre ++ [comp], Plain c := by
          intro c h
          obtain h | h := List.mem_append.mp h
          · exact hp c h
          · exact List.mem_singleton.mp h ▸ hcomp
        simp only [extendPath_render hp, ih hpre hrest, Sum.map_map]
        congr 1
        funext l
        simp

theorem followed_mono {fs : Fs Node} (h : fs.followed true rest next = none) :
    fs.followed followFinal (rest ++ more) next = none := by
  unfold Fs.followed at h ⊢
  by_cases hs : fs.isSymlink next
  · simp only [hs, Bool.or_true, Bool.and_self, if_true] at h
    simp [h]
  · simp [hs]

/-- A walk that ends at a node goes on from there. -/
theorem trail_append (h : trail fs true node as = .inl (some stop)) :
    trail fs followFinal node (as ++ bs) =
      (trail fs followFinal stop bs).map id fun l => (as ++ l.1, l.2) := by
  induction as generalizing node with
  | nil =>
    cases h
    rw [List.nil_append]
    cases trail fs followFinal stop bs <;> rfl
  | cons comp rest ih =>
    rw [List.cons_append, trail]
    rw [trail] at h
    cases he : fs.enter node comp with
    | none => simp [he] at h
    | some next =>
      simp only [he] at h ⊢
      cases hf : fs.followed true rest next with
      | some target => simp [hf] at h
      | none =>
        simp only [hf] at h
        have hstop : trail fs true next rest = .inl (some stop) := by
          cases ht : trail fs true next rest with
          | inl r => simpa [ht] using h
          | inr l => simp [ht] at h
        rw [followed_mono hf]
        simp only [ih hstop, Sum.map_map]
        congr 1

def mountMatches (path : Text) (m : Mount Node) : Bool :=
  startsAt path m.path || (m.path = ['/'] && path.head? = some '/')

theorem mountStep_eq (path : Text) (best : Option (Mount Node)) (m : Mount Node) :
    mountStep path best m =
      if (best.map fun b => b.path.length).getD 0 < m.path.length ∧ mountMatches path m
      then some m else best := by
  unfold mountStep mountMatches
  by_cases hl : m.path.length ≤ (best.map fun b => b.path.length).getD 0
  · rw [if_pos hl, if_neg (by omega)]
  · rw [if_neg hl]
    simp only [not_le.mp hl, true_and]

/-- A mount whose path a normalised path starts with has the path of a prefix. -/
theorem mountMatches_render {m : Mount Node} (hp : ∀ c ∈ p, Plain c) (hm : m.path ≠ []) :
    mountMatches (render p) m = true ↔ ∃ cs, cs <+: p ∧ m.path = render cs := by
  unfold mountMatches
  simp only [Bool.or_eq_true, Bool.and_eq_true, decide_eq_true_eq, head_render, and_true]
  constructor
  · intro h
    obtain h | h := h
    · by_cases hne : p = []
      · subst hne
        obtain ⟨x, t, ht⟩ := List.exists_cons_of_ne_nil hm
        rw [ht, render, if_pos rfl, startsAt_cons] at h
        obtain ⟨rfl, h⟩ := h
        cases t with
        | nil => exact ⟨[], List.nil_prefix, ht⟩
        | cons y t => simp [not_startsAt_nil] at h
      · rw [render_of_ne hne, startsAt_tailText hp] at h
        obtain ⟨cs, hcs, heq⟩ := h
        have : cs ≠ [] := by
          rintro rfl
          exact hm heq
        exact ⟨cs, hcs, by rw [heq, render_of_ne this]⟩
    · exact ⟨[], List.nil_prefix, h⟩
  · intro h
    obtain ⟨cs, hcs, heq⟩ := h
    by_cases hne : cs = []
    · subst hne
      exact .inr heq
    · have hpne : p ≠ [] := by
        rintro rfl
        exact hne (List.prefix_nil.mp hcs)
      left
      rw [render_of_ne hpne, startsAt_tailText hp]
      exact ⟨cs, hcs, by rw [heq, render_of_ne hne]⟩

theorem find_append (path : Text) (l : List (Mount Node)) (m : Mount Node) :
    findMountForPath (l ++ [m]) path = mountStep path (findMountForPath l path) m := by
  simp [findMountForPath]

theorem find_some {mounts : List (Mount Node)} (h : findMountForPath mounts path = some m) :
    m ∈ mounts ∧ m.path ≠ [] ∧ mountMatches path m := by
  induction mounts using List.reverseRecOn with
  | nil => cases h
  | append_singleton l x ih =>
    rw [find_append, mountStep_eq] at h
    split at h
    · rename_i hx
      cases h
      refine ⟨by simp, ?_, hx.2⟩
      intro hnil
      simp [hnil] at hx
    · obtain ⟨hm, hrest⟩ := ih h
      exact ⟨by simp [hm], hrest⟩

theorem find_none {mounts : List (Mount Node)} (h : findMountForPath mounts path = none) :
    ∀ m ∈ mounts, m.path ≠ [] → ¬ mountMatches path m := by
  induction mounts using List.reverseRecOn with
  | nil => simp
  | append_singleton l x ih =>
    rw [find_append, mountStep_eq] at h
    split at h
    · cases h
    · rename_i hx
      intro m hm hne
      obtain hm | hm := List.mem_append.mp hm
      · exact ih h m hm hne
      · obtain rfl := List.mem_singleton.mp hm
        intro hmatch
        apply hx
        rw [h]
        exact ⟨List.length_pos_iff.mpr hne, hmatch⟩

theorem find_congr {mounts : List (Mount Node)}
    (h : ∀ m ∈ mounts, m.path ≠ [] → (mountMatches p m = true ↔ mountMatches q m = true)) :
    findMountForPath mounts p = findMountForPath mounts q := by
  induction mounts using List.reverseRecOn with
  | nil => rfl
  | append_singleton l x ih =>
    rw [find_append, find_append, ih fun m hm => h m (by simp [hm]), mountStep_eq, mountStep_eq]
    by_cases hx : x.path = []
    · simp [hx]
    · simp only [h x (by simp) hx]

/-- The mount tables seen from below `root`: entries above it are gone. -/
def toView (root : List Text) (m : Mount Node) : Option (Mount Node) :=
  if m.path = render (components m.path) ∧ root <+: components m.path ∧
    (∀ c ∈ components m.path, Plain c)
  then some ⟨render ((components m.path).drop root.length), m.root⟩
  else none

theorem toView_render {m : Mount Node} (hcs : ∀ c ∈ root ++ q, Plain c)
    (h : m.path = render (root ++ q)) : toView root m = some ⟨render q, m.root⟩ := by
  have hc : components m.path = root ++ q := by rw [h, components_render hcs]
  rw [toView, hc, if_pos ⟨h, List.prefix_append _ _, hcs⟩, List.drop_left]

theorem toView_some {m : Mount Node} (h : toView root m = some v) :
    ∃ q, (∀ c ∈ root ++ q, Plain c) ∧ m.path = render (root ++ q) ∧ v = ⟨render q, m.root⟩ := by
  unfold toView at h
  split at h
  · rename_i hc
    obtain ⟨hpath, ⟨q, hq⟩, hplain⟩ := hc
    cases h
    refine ⟨q, hq ▸ hplain, by rw [hq]; exact hpath, ?_⟩
    rw [← hq, List.drop_left]
  · cases h

theorem length_tailText_pos (h : ∀ c ∈ cs, Plain c) (hne : cs ≠ []) : 2 ≤ (tailText cs).length := by
  obtain ⟨c, cs, rfl⟩ := List.exists_cons_of_ne_nil hne
  have hc := List.length_pos_iff.mpr (h c List.mem_cons_self).1
  simp only [tailText_cons, List.length_cons, List.length_append]
  omega

theorem length_render (cs : List Text) :
    (render cs).length = if cs = [] then 1 else (tailText cs).length := by
  unfold render
  split <;> rfl

theorem length_render_lt (h : ∀ c ∈ as ++ bs, Plain c) (hne : bs ≠ []) :
    (render as).length < (render (as ++ bs)).length := by
  have hb := length_tailText_pos (fun c hc => h c (List.mem_append_right _ hc)) hne
  have hne' : as ++ bs ≠ [] := by simp [hne]
  rw [length_render as, length_render (as ++ bs), if_neg hne', tailText_append, List.length_append]
  by_cases ha : as = []
  · rw [if_pos ha]
    omega
  · rw [if_neg ha]
    omega

theorem length_render_append (h₁ : ∀ c ∈ root ++ p, Plain c) (h₂ : ∀ c ∈ root ++ q, Plain c) :
    (render (root ++ p)).length < (render (root ++ q)).length ↔
      (render p).length < (render q).length := by
  by_cases hr : root = []
  · simp [hr]
  · have hp : p ≠ [] → 2 ≤ (tailText p).length :=
      length_tailText_pos fun c hc => h₁ c (List.mem_append_right _ hc)
    have hq : q ≠ [] → 2 ≤ (tailText q).length :=
      length_tailText_pos fun c hc => h₂ c (List.mem_append_right _ hc)
    simp only [length_render, List.append_eq_nil_iff, hr, false_and, if_false, tailText_append,
      List.length_append]
    by_cases hpn : p = []
    · by_cases hqn : q = []
      · simp [hpn, hqn]
      · have := hq hqn
        simp only [hpn, hqn, if_true, if_false, tailText_nil, List.length_nil]
        omega
    · by_cases hqn : q = []
      · have := hp hpn
        simp only [hpn, hqn, if_true, if_false, tailText_nil, List.length_nil]
        omega
      · simp only [hpn, hqn, if_false]
        omega

/-- The longest match below `root` is seen from there as the longest match; without one, nothing that
matches lies below. -/
theorem find_toView (mounts : List (Mount Node)) (hp : ∀ c ∈ root ++ p, Plain c) :
    (∃ m v, findMountForPath mounts (render (root ++ p)) = some m ∧ toView root m = some v ∧
      findMountForPath (mounts.filterMap (toView root)) (render p) = some v) ∨
    (findMountForPath (mounts.filterMap (toView root)) (render p) = none ∧
      ∀ m, findMountForPath mounts (render (root ++ p)) = some m → toView root m = none) := by
  have hpp : ∀ c ∈ p, Plain c := fun c hc => hp c (List.mem_append_right _ hc)
  induction mounts using List.reverseRecOn with
  | nil => exact .inr ⟨rfl, by simp [findMountForPath]⟩
  | append_singleton l x ih =>
    rw [find_append, mountStep_eq, List.filterMap_append]
    cases hx : toView root x with
    | none =>
      have hview : (l.filterMap (toView root)) ++ [x].filterMap (toView root) =
          l.filterMap (toView root) := by simp [hx]
      rw [hview]
      split
      · rename_i hc
        obtain ⟨hlen, hmatch⟩ := hc
        have hne : x.path ≠ [] := List.length_pos_iff.mp (by omega)
        obtain ⟨cs, hcs, hpath⟩ := (mountMatches_render hp hne).mp hmatch
        -- it matches but is not below `root`, so it lies above and is shorter than what is below
        have habove : cs <+: root := by
          obtain h | h := List.prefix_or_prefix_of_prefix hcs (List.prefix_append root p)
          · exact h
          · obtain ⟨q, rfl⟩ := h
            rw [toView_render (fun c hc => hp c (hcs.subset hc)) hpath] at hx
            cases hx
        obtain ⟨m, v, hm, hv, hfind⟩ | ⟨hfind, hm⟩ := ih
        · obtain ⟨q, hq, hmp, -⟩ := toView_some hv
          rw [hm] at hlen
          simp only [Option.map_some, Option.getD_some, hmp, hpath] at hlen
          obtain ⟨d, rfl⟩ := habove
          by_cases hd : d ++ q = []
          · rw [List.append_assoc, hd, List.append_nil] at hlen
            omega
          · rw [List.append_assoc] at hlen hq
            have := length_render_lt hq hd
            omega
        · exact .inr ⟨hfind, fun m h => by cases h; exact hx⟩
      · exact ih
    | some v =>
      obtain ⟨q, hq, hxp, rfl⟩ := toView_some hx
      have hview : (l.filterMap (toView root)) ++ [x].filterMap (toView root) =
          l.filterMap (toView root) ++ [⟨render q, x.root⟩] := by simp [hx]
      rw [hview, find_append, mountStep_eq]
      have hxne : x.path ≠ [] := by
        rw [hxp]
        intro h
        have : (render (root ++ q)).head? = some '/' := head_render
        simp [h] at this
      have hvne : render q ≠ [] := by
        intro h
        have : (render q).head? = some '/' := head_render
        simp [h] at this
      have hmatch : mountMatches (render (root ++ p)) x = true ↔
          mountMatches (render p) (⟨render q, x.root⟩ : Mount Node) = true := by
        rw [mountMatches_render hp hxne, mountMatches_render hpp hvne]
        constructor
        · intro h
          obtain ⟨cs, hcs, hpath⟩ := h
          have : cs = root ++ q := by
            have h₁ := components_render fun c hc => hp c (hcs.subset hc)
            rw [← hpath, hxp, components_render hq] at h₁
            exact h₁.symm
          subst this
          exact ⟨q, (List.prefix_append_right_inj root).mp hcs, rfl⟩
        · intro h
          obtain ⟨cs, hcs, hpath⟩ := h
          have : cs = q := by
            have h₁ := components_render fun c hc => hpp c (hcs.subset hc)
            rw [← hpath, components_render fun c hc => hq c (List.mem_append_right _ hc)] at h₁
            exact h₁.symm
          subst this
          exact ⟨root ++ cs, (List.prefix_append_right_inj root).mpr hcs, hxp⟩
      obtain ⟨m, v, hm, hv, hfind⟩ | ⟨hfind, hm⟩ := ih
      · obtain ⟨q', hq', hmp, rfl⟩ := toView_some hv
        have hlen : m.path.length < x.path.length ↔ (render q').length < (render q).length := by
          rw [hmp, hxp, length_render_append hq' hq]
        simp only [hm, hfind, Option.map_some, Option.getD_some, hlen, hmatch]
        left
        split
        · exact ⟨x, _, rfl, hx, rfl⟩
        · exact ⟨m, _, rfl, hv, rfl⟩
      · simp only [hfind, Option.map_none, Option.getD_none]
        by_cases hmx : mountMatches (render (root ++ p)) x = true
        · left
          refine ⟨x, _, if_pos ⟨?_, hmx⟩, hx, if_pos ⟨List.length_pos_iff.mpr hvne, hmatch.mp hmx⟩⟩
          cases hb : findMountForPath l (render (root ++ p)) with
          | none => exact List.length_pos_iff.mpr hxne
          | some b =>
            have hbn := hm b hb
            obtain ⟨-, hbne, hbm⟩ := find_some hb
            obtain ⟨cs, hcs, hpath⟩ := (mountMatches_render hp hbne).mp hbm
            obtain h | h := List.prefix_or_prefix_of_prefix hcs (List.prefix_append root p)
            · obtain ⟨d, rfl⟩ := h
              simp only [Option.map_some, Option.getD_some]
              rw [hpath, hxp, List.append_assoc]
              by_cases hd : d ++ q = []
              · obtain ⟨rfl, rfl⟩ := List.append_eq_nil_iff.mp hd
                simp only [List.append_nil] at hbn hq
                have hself : toView cs b = some ⟨render [], b.root⟩ :=
                  toView_render (by simpa using hq) (by simpa using hpath)
                rw [hself] at hbn
                cases hbn
              · rw [List.append_assoc] at hq
                exact length_render_lt hq hd
            · obtain ⟨d, rfl⟩ := h
              rw [toView_render (fun c hc => hp c (hcs.subset hc)) hpath] at hbn
              cases hbn
        · right
          rw [if_neg fun h => hmx (hmatch.mpr h.2), if_neg fun h => hmx h.2]
          exact ⟨rfl, hm⟩

/-- A lookup of a normalised path by its components. -/
def lookTrail (fs : Fs Node) (followFinal : Bool) (p : List Text) :
    Option Node ⊕ List Text × Text × List Text :=
  if fs.squashfsAccessBlocked && startsAt (render p) squashfsPath then .inl none
  else if p = [] then .inl (some fs.root)
  else
    match findMountForPath fs.mounts (render p) with
    | some m =>
      (trail fs followFinal m.root (p.drop (components m.path).length)).map id
        fun l => (components m.path ++ l.1, l.2)
    | none => trail fs followFinal fs.root p

theorem render_eq_slash (h : ∀ c ∈ p, Plain c) : render p = ['/'] ↔ p = [] := by
  constructor
  · intro hr
    rw [← components_render h, hr]
    rfl
  · intro hp
    rw [hp]
    rfl

theorem stripped_render (h : ∀ c ∈ cs, Plain c) :
    (if 1 < (render cs).length ∧ (render cs).getLast? = some '/' then (render cs).dropLast
      else render cs) = render cs := by
  by_cases hne : cs = []
  · subst hne
    rfl
  · rw [if_neg]
    intro hc
    rw [render_of_ne hne] at hc
    exact getLast?_tailText h hc.2

theorem drop_render (h : ∀ c ∈ cs ++ r, Plain c) :
    components ((render (cs ++ r)).drop (render cs).length) = r := by
  have hr : ∀ c ∈ r, Plain c := fun c hc => h c (List.mem_append_right _ hc)
  by_cases hcs : cs = []
  · subst hcs
    have hd : (render ([] : List Text)).length = 1 := rfl
    rw [List.nil_append, hd]
    cases r with
    | nil => rfl
    | cons c r =>
      have := components_render hr
      rw [render_cons, tailText_cons, components_slash] at this
      rw [render_cons, tailText_cons]
      exact this
  · rw [render_of_ne hcs, render_of_ne (by simp [hcs]), tailText_append, List.drop_left]
    simpa [components, scan, addComponent] using components_tailText [] (Plain.run hr)

theorem lookResolved_render (hp : ∀ c ∈ p, Plain c) :
    lookResolved fs followFinal (render p) =
      (lookTrail fs followFinal p).map id fun l => render (redirectTo l) := by
  unfold lookResolved lookTrail
  rw [if_neg (by simp)]
  split
  · rfl
  · by_cases hnil : p = []
    · subst hnil
      rfl
    · rw [if_neg (fun h => hnil ((render_eq_slash hp).mp h)), if_neg hnil]
      cases hf : findMountForPath fs.mounts (render p) with
      | none =>
        have hnone : ∀ c ∈ ([] : List Text) ++ p, Plain c := hp
        have hd : components ((render p).drop 1) = p := drop_render hnone
        have hw : walk fs followFinal fs.root (render []) p =
            (trail fs followFinal fs.root p).map id fun l => render (redirectTo ([] ++ l.1, l.2)) :=
          walk_eq_trail (by simp) hp
        dsimp only
        rw [hd]
        exact hw
      | some m =>
        obtain ⟨-, hne, hm⟩ := find_some hf
        obtain ⟨cs, ⟨r, rfl⟩, hpath⟩ := (mountMatches_render hp hne).mp hm
        have hcs : ∀ c ∈ cs, Plain c := fun c hc => hp c (List.mem_append_left _ hc)
        dsimp only
        rw [hpath, components_render hcs, stripped_render hcs, drop_render hp, List.drop_left,
          walk_eq_trail hcs fun c hc => hp c (List.mem_append_right _ hc), Sum.map_map]
        rfl

/-- The file systems with the directory `node` at the path `root` as their root. -/
def Fs.subtree (fs : Fs Node) (root : List Text) (node : Node) : Fs Node :=
  { fs with
    root := node
    mounts := fs.mounts.filterMap (toView root)
    squashfsAccessBlocked := fs.squashfsAccessBlocked && root = [] }

theorem map_inl {x : Option Node ⊕ β} {f : β → γ} (h : x.map id f = .inl r) : x = .inl r := by
  cases x with
  | inl r' => simpa using h
  | inr b => cases h

/-- `/squashfs` is refused for a path below `root` only where it is refused for `root`. -/
theorem blocked_append (hp : ∀ c ∈ root ++ p, Plain c) (hne : root ≠ []) :
    startsAt (render (root ++ p)) squashfsPath = startsAt (render root) squashfsPath := by
  obtain ⟨c, root, rfl⟩ := List.exists_cons_of_ne_nil hne
  have hname : Plain ['s', 'q', 'u', 'a', 's', 'h', 'f', 's'] := by decide
  have hpath : squashfsPath = render [['s', 'q', 'u', 'a', 's', 'h', 'f', 's']] := rfl
  rw [Bool.eq_iff_iff, hpath, startsAt_render hp (by simpa using hname) (by simp),
    startsAt_render (fun x hx => hp x (List.mem_append_left _ hx)) (by simpa using hname) (by simp)]
  simp

theorem trail_subtree : trail (Fs.subtree fs root top) followFinal node p =
    trail fs followFinal node p := by
  induction p generalizing node with
  | nil => rfl
  | cons comp rest ih =>
    have he : (fs.subtree root top).enter node comp = fs.enter node comp := rfl
    have hf : ∀ next, (fs.subtree root top).followed followFinal rest next =
      fs.followed followFinal rest next := fun _ => rfl
    simp only [trail, he, hf, ih]

theorem lookTrail_subtree_nil {fs : Fs Node} (hp : ∀ c ∈ p, Plain c) :
    lookTrail (fs.subtree [] fs.root) followFinal p = lookTrail fs followFinal p := by
  have hblocked : (fs.subtree [] fs.root).squashfsAccessBlocked = fs.squashfsAccessBlocked := by
    simp [Fs.subtree]
  have hmounts : findMountForPath (fs.subtree [] fs.root).mounts (render p) =
      findMountForPath fs.mounts (render p) := by
    have hnil : ∀ c ∈ ([] : List Text) ++ p, Plain c := hp
    obtain ⟨m, v, hm, hv, hfind⟩ | ⟨hfind, hm⟩ := find_toView fs.mounts hnil
    · obtain ⟨q, hq, hpath, rfl⟩ := toView_some hv
      refine hfind.trans (Eq.trans ?_ hm.symm)
      rw [← show m.path = render q from hpath]
    · refine hfind.trans (Eq.symm ?_)
      rw [Option.eq_none_iff_forall_ne_some]
      intro m hb
      obtain ⟨-, hne, hmatch⟩ := find_some hb
      obtain ⟨cs, hcs, hpath⟩ := (mountMatches_render hp hne).mp hmatch
      have hself : toView [] m = some ⟨render cs, m.root⟩ :=
        toView_render (fun c hc => hp c (hcs.subset hc)) hpath
      rw [hm m hb] at hself
      cases hself
  unfold lookTrail
  rw [hblocked, hmounts]
  simp only [trail_subtree]
  rfl

/-- The node a lookup of `root` finds is where every lookup below it starts or passes. -/
theorem lookTrail_append {fs : Fs Node} (hp : ∀ c ∈ root ++ p, Plain c) (hne : root ≠ [])
    (hreach : lookTrail fs true root = .inl (some node))
    (hnone : findMountForPath (fs.mounts.filterMap (toView root)) (render p) = none) :
    lookTrail fs followFinal (root ++ p) =
      (trail fs followFinal node p).map id fun l => (root ++ l.1, l.2) := by
  have hr : ∀ c ∈ root, Plain c := fun c hc => hp c (List.mem_append_left _ hc)
  have hpp : ∀ c ∈ p, Plain c := fun c hc => hp c (List.mem_append_right _ hc)
  have hsame : findMountForPath fs.mounts (render (root ++ p)) =
      findMountForPath fs.mounts (render root) := by
    apply find_congr
    intro m hm hmne
    rw [mountMatches_render hp hmne, mountMatches_render hr hmne]
    constructor
    · intro h
      obtain ⟨cs, hcs, hpath⟩ := h
      obtain h | h := List.prefix_or_prefix_of_prefix hcs (List.prefix_append root p)
      · exact ⟨cs, h, hpath⟩
      · obtain ⟨q, rfl⟩ := h
        have hview := toView_render (fun c hc => hp c (hcs.subset hc)) hpath
        have hq : ∀ c ∈ q, Plain c :=
          fun c hc => hp c (hcs.subset (List.mem_append_right _ hc))
        have hqne : (⟨render q, m.root⟩ : Mount Node).path ≠ [] := by
          intro h
          have : (render q).head? = some '/' := head_render
          rw [show render q = [] from h] at this
          cases this
        exact absurd ((mountMatches_render hpp hqne).mpr
          ⟨q, (List.prefix_append_right_inj root).mp hcs, rfl⟩)
          (find_none hnone _ (List.mem_filterMap.mpr ⟨m, hm, hview⟩) hqne)
    · intro h
      obtain ⟨cs, hcs, hpath⟩ := h
      exact ⟨cs, hcs.trans (List.prefix_append root p), hpath⟩
  unfold lookTrail at hreach ⊢
  rw [blocked_append hp hne, if_neg (show ¬ root ++ p = [] by simp [hne]), hsame]
  split at hreach
  · cases hreach
  · rename_i hb
    rw [if_neg hb]
    cases hf : findMountForPath fs.mounts (render root) with
    | none =>
      rw [hf] at hreach
      exact trail_append hreach
    | some m =>
      rw [hf] at hreach
      dsimp only at hreach ⊢
      obtain ⟨-, hmne, hm⟩ := find_some hf
      obtain ⟨cs, ⟨d, rfl⟩, hpath⟩ := (mountMatches_render hr hmne).mp hm
      have hcs : components m.path = cs := by
        rw [hpath, components_render fun c hc => hr c (List.mem_append_left _ hc)]
      rw [hcs, List.drop_left] at hreach
      rw [hcs, List.append_assoc, List.drop_left, trail_append (map_inl hreach), Sum.map_map]
      congr 1
      funext l
      simp

/-- Below `root` a lookup finds what the same lookup finds in the subtree. -/
theorem lookTrail_subtree {fs : Fs Node} (hp : ∀ c ∈ root ++ p, Plain c)
    (hreach : lookResolved fs true (render root) = .inl (some node)) :
    lookTrail fs followFinal (root ++ p) =
      (lookTrail (fs.subtree root node) followFinal p).map id fun l => (root ++ l.1, l.2) := by
  have hr : ∀ c ∈ root, Plain c := fun c hc => hp c (List.mem_append_left _ hc)
  have hpp : ∀ c ∈ p, Plain c := fun c hc => hp c (List.mem_append_right _ hc)
  rw [lookResolved_render hr] at hreach
  have hreach := map_inl hreach
  by_cases hne : root = []
  · subst hne
    obtain rfl : fs.root = node := by
      have hb : startsAt (render []) squashfsPath = false := rfl
      simpa [lookTrail, hb] using hreach
    rw [List.nil_append, lookTrail_subtree_nil hpp]
    cases lookTrail fs followFinal p <;> rfl
  · have hblocked : (fs.subtree root node).squashfsAccessBlocked = false := by
      simp [Fs.subtree, hne]
    have hviewmounts : (fs.subtree root node).mounts = fs.mounts.filterMap (toView root) := rfl
    obtain ⟨m, v, hm, hv, hfind⟩ | ⟨hfind, -⟩ := find_toView fs.mounts hp
    · obtain ⟨q, hq, hpath, rfl⟩ := toView_some hv
      have hcm : components m.path = root ++ q := by rw [hpath, components_render hq]
      have hcv : components (render q) = q :=
        components_render fun c hc => hq c (List.mem_append_right _ hc)
      have hb : (fs.squashfsAccessBlocked && startsAt (render (root ++ p)) squashfsPath) = false := by
        rw [blocked_append hp hne]
        unfold lookTrail at hreach
        split at hreach
        · cases hreach
        · rename_i hb
          exact Bool.eq_false_iff.mpr hb
      have hdrop : (root ++ p).drop (root ++ q).length = p.drop q.length := by
        rw [List.length_append, List.drop_append, Nat.add_comm]
        simp
      unfold lookTrail
      rw [hb, hblocked, if_neg (by simp [hne] : ¬ root ++ p = []), hm]
      simp only [Bool.false_and, Bool.false_eq_true, if_false, hcm, hdrop]
      by_cases hpn : p = []
      · subst hpn
        obtain ⟨-, hmne, hmatch⟩ := find_some hm
        obtain ⟨cs, hcs, hpath'⟩ := (mountMatches_render hp hmne).mp hmatch
        obtain rfl : root ++ q = cs := by
          rw [← hcm, hpath', components_render fun c hc => hp c (hcs.subset hc)]
        obtain rfl : q = [] := by
          have := hcs.length_le
          simp only [List.length_append, List.length_nil] at this
          exact List.length_eq_zero_iff.mp (by omega)
        simp only [List.append_nil] at hm hcm
        unfold lookTrail at hreach
        rw [List.append_nil] at hb
        rw [hb, if_neg hne, hm] at hreach
        simp only [Bool.false_eq_true, if_false, hcm, List.drop_length, trail, Sum.map_inl, id,
          Sum.inl.injEq, Option.some.injEq] at hreach
        subst hreach
        rfl
      · rw [if_neg hpn, hviewmounts, hfind]
        simp only [hcv, trail_subtree, Sum.map_map]
        congr 1
        funext l
        simp
    · rw [lookTrail_append hp hne hreach hfind]
      unfold lookTrail
      rw [hblocked, hviewmounts, hfind]
      simp only [Bool.false_and, Bool.false_eq_true, if_false, trail_subtree]
      split
      · rename_i hpn
        subst hpn
        rfl
      · rfl

theorem trail_link {fs : Fs Node} (h : trail fs followFinal node p = .inr l) :
    ∀ c, c ∈ l.1 ∨ c ∈ l.2.2 → c ∈ p := by
  induction p generalizing node l with
  | nil => cases h
  | cons comp rest ih =>
    rw [trail] at h
    cases he : fs.enter node comp with
    | none => simp [he] at h
    | some next =>
      simp only [he] at h
      cases hf : fs.followed followFinal rest next with
      | some target =>
        simp only [hf, Sum.inr.injEq] at h
        subst h
        intro c hc
        exact List.mem_cons_of_mem _ (hc.resolve_left List.not_mem_nil)
      | none =>
        simp only [hf] at h
        cases ht : trail fs followFinal next rest with
        | inl r => simp [ht] at h
        | inr l' =>
          simp only [ht, Sum.map_inr, Sum.inr.injEq] at h
          subst h
          intro c hc
          have := ih ht c
          simp only [List.mem_cons] at hc ⊢
          obtain (rfl | hc) | hc := hc
          · exact .inl rfl
          · exact .inr (this (.inl hc))
          · exact .inr (this (.inr hc))

theorem lookTrail_link {fs : Fs Node} (hp : ∀ c ∈ p, Plain c)
    (h : lookTrail fs followFinal p = .inr l) : ∀ c, c ∈ l.1 ∨ c ∈ l.2.2 → Plain c := by
  unfold lookTrail at h
  split at h
  · cases h
  · split at h
    · cases h
    · split at h
      · rename_i m hm
        obtain ⟨-, hne, hmatch⟩ := find_some hm
        obtain ⟨cs, hcs, hpath⟩ := (mountMatches_render hp hne).mp hmatch
        have hcm : components m.path = cs := by
          rw [hpath, components_render fun c hc => hp c (hcs.subset hc)]
        cases ht : trail fs followFinal m.root (p.drop (components m.path).length) with
        | inl r => simp [ht] at h
        | inr l' =>
          simp only [ht, Sum.map_inr, Sum.inr.injEq] at h
          subst h
          intro c hc
          have hl := trail_link ht c
          obtain hc | hc := hc
          · obtain hc | hc := List.mem_append.mp hc
            · exact hp c (hcs.subset (hcm ▸ hc))
            · exact hp c (List.mem_of_mem_drop (hl (.inl hc)))
          · exact hp c (List.mem_of_mem_drop (hl (.inr hc)))
      · exact fun c hc => hp c (trail_link h c hc)

theorem redirectTo_plain (h : ∀ c, c ∈ l.1 ∨ c ∈ l.2.2 → Plain c) :
    ∀ c ∈ redirectTo l, Plain c := by
  apply collapse_is_plain
  intro c hc
  simp only [List.mem_append] at hc
  obtain (hc | hc) | hc := hc
  · split at hc
    · cases hc
    · exact ⟨(h c (.inl hc)).1, (h c (.inl hc)).2.1⟩
  · exact mem_components hc
  · exact ⟨(h c (.inr hc)).1, (h c (.inr hc)).2.1⟩

/-- The components never climb above the stack they start from. -/
def stays (stack : List Text) : List Text → Bool
  | [] => true
  | c :: cs => (c ≠ dotdot || stack ≠ []) && stays (place stack c) cs

theorem place_append (h : comp = dotdot → stack ≠ []) :
    place (root ++ stack) comp = root ++ place stack comp := by
  unfold place
  by_cases hdot : comp = dot
  · simp [hdot]
  · by_cases hdd : comp = dotdot
    · rw [if_neg hdot, if_pos hdd, if_neg hdot, if_pos hdd, List.dropLast_append_of_ne_nil (h hdd)]
    · simp [hdot, hdd]

theorem foldl_place_append {stack cs : List Text} (h : stays stack cs = true) :
    cs.foldl place (root ++ stack) = root ++ cs.foldl place stack := by
  induction cs generalizing stack with
  | nil => rfl
  | cons c cs ih =>
    simp only [stays, Bool.and_eq_true, Bool.or_eq_true, decide_eq_true_eq] at h
    rw [List.foldl_cons, List.foldl_cons, place_append, ih h.2]
    intro hc
    exact h.1.resolve_left (not_not.mpr hc)

/-- Having climbed above it once, the text stays shorter than it would be below. -/
theorem foldl_place_short {cs : List Text} (h : host.length < n + view.length) (hn : 0 < n) :
    (cs.foldl place host).length < n + (cs.foldl place view).length := by
  induction cs generalizing host view with
  | nil => exact h
  | cons c cs ih =>
    apply ih
    unfold place
    split
    · exact h
    · split
      · simp only [List.length_dropLast]
        omega
      · simp only [List.length_append, List.length_singleton]
        omega

theorem foldl_place_climbs {stack cs : List Text} (h : stays stack cs = false) (hne : root ≠ []) :
    (cs.foldl place (root ++ stack)).length < root.length + (cs.foldl place stack).length := by
  induction cs generalizing stack with
  | nil => cases h
  | cons c cs ih =>
    rw [List.foldl_cons, List.foldl_cons]
    by_cases hc : c = dotdot ∧ stack = []
    · obtain ⟨rfl, rfl⟩ := hc
      apply foldl_place_short
      · have := List.length_pos_iff.mpr hne
        simp only [place, if_neg (show ¬ dotdot = dot by decide), if_true, List.append_nil,
          List.length_dropLast]
        omega
      · exact List.length_pos_iff.mpr hne
    · have hstep : c = dotdot → stack ≠ [] := fun h₁ h₂ => hc ⟨h₁, h₂⟩
      rw [place_append hstep]
      apply ih
      by_contra hst
      apply Bool.eq_false_iff.mp h
      simp only [stays, Bool.and_eq_true, Bool.or_eq_true, decide_eq_true_eq]
      constructor
      · by_cases hdd : c = dotdot
        · exact .inr (hstep hdd)
        · exact .inl hdd
      · simpa using hst

/-- Where `vfs_apply_task_root` leads from a redirected path with the components `u`. -/
def rerooted (root u : List Text) : List Text := if root <+: u then u else root ++ u

/-- A link leads a task with the root `root` where it leads in the subtree: an absolute target does not
begin with the root's text, a relative one does not climb above the root, or climbs to a path that is
no longer below the root and is the one that the subtree gives. -/
def Rooted (root : List Text) (link : List Text × Text × List Text) : Prop :=
  root = [] ∨
    if link.2.1.head? = some '/' then ¬ root <+: redirectTo link
    else
      stays link.1 (components link.2.1 ++ link.2.2) = true ∨
        ¬ root <+: redirectTo (root ++ link.1, link.2) ∧
          redirectTo (root ++ link.1, link.2) = redirectTo link

theorem redirectTo_relative (h : ∀ c ∈ l.1, Plain c) (ht : l.2.1.head? ≠ some '/') :
    redirectTo l = (components l.2.1 ++ l.2.2).foldl place l.1 := by
  rw [redirectTo, if_neg ht, List.append_assoc, collapse_append_plain h]

/-- Exactly these links lead to the same path. -/
theorem rerooted_iff {l : List Text × Text × List Text} (hr : ∀ c ∈ root, Plain c)
    (hl : ∀ c, c ∈ l.1 ∨ c ∈ l.2.2 → Plain c) :
    rerooted root (redirectTo (root ++ l.1, l.2)) = root ++ redirectTo l ↔ Rooted root l := by
  unfold rerooted Rooted
  by_cases hne : root = []
  · subst hne
    simp
  · simp only [hne, false_or]
    by_cases ht : l.2.1.head? = some '/'
    · have hsame : redirectTo (root ++ l.1, l.2) = redirectTo l := by simp [redirectTo, ht]
      rw [if_pos ht, hsame]
      by_cases hp : root <+: redirectTo l
      · simp only [hp, if_true, not_true_eq_false, iff_false]
        intro h
        have := congrArg List.length h
        rw [List.length_append] at this
        exact hne (List.length_eq_zero_iff.mp (by omega))
      · simp [hp]
    · have hview := redirectTo_relative (fun c hc => hl c (.inl hc)) ht
      have hhost : redirectTo (root ++ l.1, l.2) =
          (components l.2.1 ++ l.2.2).foldl place (root ++ l.1) := by
        apply redirectTo_relative (l := (root ++ l.1, l.2)) _ ht
        intro c hc
        obtain hc | hc := List.mem_append.mp hc
        · exact hr c hc
        · exact hl c (.inl hc)
      rw [if_neg ht]
      by_cases hst : stays l.1 (components l.2.1 ++ l.2.2) = true
      · rw [hhost, foldl_place_append hst, ← hview]
        simp [hst, List.prefix_append]
      · have hshort := foldl_place_climbs (by simpa using hst) hne
        rw [← hview, ← hhost] at hshort
        by_cases hp : root <+: redirectTo (root ++ l.1, l.2)
        · simp only [hp, if_true, hst, not_true_eq_false, false_and, or_false, iff_false,
            Bool.false_eq_true]
          intro h
          rw [h, List.length_append] at hshort
          omega
        · simp [hp, hst]

theorem vfsResolvePath_head {task : Task} (h : path.head? = some '/' ∨ task.cwd.head? = some '/' ∨
    task.cwd = []) : (vfsResolvePath task path).head? = some '/' := by
  unfold vfsResolvePath
  by_cases hp : path.head? = some '/'
  · rw [if_pos hp]
    exact hp
  · rw [if_neg hp]
    by_cases hc : task.cwd = []
    · simp [hc]
    · have hcwd : task.cwd.head? = some '/' := (h.resolve_left hp).resolve_right hc
      obtain ⟨x, t, ht⟩ := List.exists_cons_of_ne_nil hc
      rw [ht, List.head?_cons, Option.some.injEq] at hcwd
      subst hcwd
      simp only [ht]
      rw [if_neg (List.cons_ne_nil _ _)]
      split <;> rfl

/-- The components of the path a lookup starts with. -/
def startPath (task : Task) (path : Text) : List Text := collapse (components (vfsResolvePath task path))

theorem startPath_plain : ∀ c ∈ startPath task path, Plain c :=
  collapse_is_plain fun _ h => mem_components h

theorem normalize_rooted (hr : ∀ c ∈ root, Plain c) (hp : ∀ c ∈ p, Plain c) :
    vfsNormalizePath (render root ++ render p) = render (root ++ p) := by
  have hhead : (render root ++ render p).head? = some '/' := by
    cases root <;> rfl
  have hrp : ∀ c ∈ root ++ p, Plain c := by
    intro c hc
    obtain hc | hc := List.mem_append.mp hc
    · exact hr c hc
    · exact hp c hc
  obtain ⟨x, hx⟩ : ∃ x, render p = '/' :: x := by
    cases p with
    | nil => exact ⟨[], rfl⟩
    | cons c p => exact ⟨c ++ tailText p, rfl⟩
  have hxc : components x = p := by
    rw [← components_slash, ← hx, components_render hp]
  rw [vfsNormalizePath, if_pos hhead, hx, components_append, components_render hr, hxc,
    collapse_plain hrp]

theorem vfsApplyTaskRoot_first {task : Task} (hu : task.isUser) (ht : task.root = some (render root))
    (hr : ∀ c ∈ root, Plain c) (hp : ∀ c ∈ p, Plain c) :
    vfsApplyTaskRoot task false (render p) = render (root ++ p) := by
  simp only [vfsApplyTaskRoot, hu, if_true, ht, Bool.false_and, Bool.false_eq_true, if_false]
  rw [stripped_render hr, normalize_rooted hr hp]

theorem resolved_redirect {task : Task} (hu : task.isUser) (ht : task.root = some (render root))
    (hr : ∀ c ∈ root, Plain c) (hp : ∀ c ∈ u, Plain c) :
    resolved task true (render u) = render (rerooted root u) := by
  have hres : vfsResolvePath task (render u) = render u := if_pos head_render
  rw [resolved, hres, vfsNormalizePath_render hp]
  simp only [vfsApplyTaskRoot, hu, if_true, ht, Bool.true_and, rerooted]
  by_cases hne : root = []
  · subst hne
    simp only [List.nil_prefix, if_true]
    split
    · rfl
    · rw [stripped_render hr, normalize_rooted hr hp]
      rfl
  · simp only [startsAt_render hp hr hne]
    split
    · rfl
    · rw [stripped_render hr, normalize_rooted hr hp]

/-- `current_task` without a root. -/
def Task.unrooted (task : Task) : Task := { task with root := none }

theorem resolved_unrooted {task : Task} (hp : ∀ c ∈ u, Plain c) :
    resolved task.unrooted true (render u) = render u := by
  have hres : vfsResolvePath task.unrooted (render u) = render u := if_pos head_render
  rw [resolved, hres, vfsNormalizePath_render hp, vfsApplyTaskRoot]
  cases hu : task.unrooted.isUser <;> rfl

/-- The path looked up after a link. -/
def Next (fs : Fs Node) (followFinal : Bool) (p p' : List Text) : Prop :=
  ∃ l, lookTrail fs followFinal p = .inr l ∧ p' = redirectTo l

/-- Every link that a lookup of `p` meets leads where it should. -/
def LinksRooted (fs : Fs Node) (followFinal : Bool) (root p : List Text) : Prop :=
  ∀ p', Relation.ReflTransGen (Next fs followFinal) p p' →
    ∀ l, lookTrail fs followFinal p' = .inr l → Rooted root l

theorem LinksRooted.next (h : LinksRooted fs followFinal root p)
    (hl : lookTrail fs followFinal p = .inr l) : LinksRooted fs followFinal root (redirectTo l) :=
  fun p' hp' => h p' (.head ⟨l, hl, rfl⟩ hp')

theorem append_plain {as bs : List Text} (ha : ∀ c ∈ as, Plain c) (hb : ∀ c ∈ bs, Plain c) :
    ∀ c ∈ as ++ bs, Plain c := by
  intro c hc
  obtain hc | hc := List.mem_append.mp hc
  · exact ha c hc
  · exact hb c hc

theorem render_inj {as bs : List Text} (ha : ∀ c ∈ as, Plain c) (hb : ∀ c ∈ bs, Plain c) :
    render as = render bs ↔ as = bs := by
  constructor
  · intro h
    rw [← components_render ha, h, components_render hb]
  · intro h
    rw [h]

theorem rerooted_plain (hr : ∀ c ∈ root, Plain c) (hp : ∀ c ∈ u, Plain c) :
    ∀ c ∈ rerooted root u, Plain c := by
  unfold rerooted
  split
  · exact hp
  · exact append_plain hr hp

theorem linksRooted_found (h : lookTrail fs followFinal p = .inl result) :
    LinksRooted fs followFinal root p := by
  intro p' hp' l hl
  cases hp' using Relation.ReflTransGen.head_induction_on with
  | refl =>
    rw [h] at hl
    cases hl
  | head hstep _ =>
    obtain ⟨l', hl', -⟩ := hstep
    rw [h] at hl'
    cases hl'

theorem linksRooted_link (h : lookTrail fs followFinal p = .inr link) (hr : Rooted root link)
    (hnext : LinksRooted fs followFinal root (redirectTo link)) :
    LinksRooted fs followFinal root p := by
  intro p' hp' l hl
  obtain rfl | ⟨p₁, hstep, hrest⟩ := Relation.ReflTransGen.cases_head hp'
  · rw [h] at hl
    cases hl
    exact hr
  · obtain ⟨l', hl', rfl⟩ := hstep
    rw [h] at hl'
    cases hl'
    exact hnext p' hrest l hl

section Rooted

variable {Node : Type*} {fs : Fs Node} {task : Task} {followFinal : Bool} {root p : List Text}
  {node : Node}

theorem look_found (hr : ∀ c ∈ root, Plain c)
    (hreach : lookResolved fs true (render root) = .inl (some node)) (hp : ∀ c ∈ p, Plain c)
    (h : lookTrail (fs.subtree root node) followFinal p = .inl result) :
    lookResolved fs followFinal (render (root ++ p)) = .inl result ∧
      lookResolved (fs.subtree root node) followFinal (render p) = .inl result := by
  rw [lookResolved_render (append_plain hr hp), lookTrail_subtree (append_plain hr hp) hreach,
    lookResolved_render hp, h]
  exact ⟨rfl, rfl⟩

theorem look_link (hr : ∀ c ∈ root, Plain c)
    (hreach : lookResolved fs true (render root) = .inl (some node)) (hp : ∀ c ∈ p, Plain c)
    (h : lookTrail (fs.subtree root node) followFinal p = .inr link) :
    lookResolved fs followFinal (render (root ++ p)) =
        .inr (render (redirectTo (root ++ link.1, link.2))) ∧
      lookResolved (fs.subtree root node) followFinal (render p) =
        .inr (render (redirectTo link)) := by
  rw [lookResolved_render (append_plain hr hp), lookTrail_subtree (append_plain hr hp) hreach,
    lookResolved_render hp, h]
  exact ⟨rfl, rfl⟩

theorem link_plain (hr : ∀ c ∈ root, Plain c) (hp : ∀ c ∈ p, Plain c)
    (h : lookTrail (fs.subtree root node) followFinal p = .inr link) :
    ∀ c ∈ redirectTo (root ++ link.1, link.2), Plain c := by
  apply redirectTo_plain
  intro c hc
  obtain hc | hc := hc
  · obtain hc | hc := List.mem_append.mp hc
    · exact hr c hc
    · exact lookTrail_link hp h c (.inl hc)
  · exact lookTrail_link hp h c (.inr hc)

/-- A chain of lookups from `root ++ p` is the chain from `p` in the subtree. -/
theorem ends_subtree (hu : task.isUser) (ht : task.root = some (render root))
    (hr : ∀ c ∈ root, Plain c) (hreach : lookResolved fs true (render root) = .inl (some node))
    (hp : ∀ c ∈ p, Plain c) (hl : LinksRooted (fs.subtree root node) followFinal root p) :
    Ends (lookResolved fs followFinal) (resolved task true) (render (root ++ p)) n result ↔
      Ends (lookResolved (fs.subtree root node) followFinal) (resolved task.unrooted true)
        (render p) n result := by
  induction n generalizing p with
  | zero =>
    cases h : lookTrail (fs.subtree root node) followFinal p with
    | inl found =>
      obtain ⟨hhost, hview⟩ := look_found hr hreach hp h
      rw [ends_inl hhost, ends_inl hview]
    | inr link =>
      obtain ⟨hhost, hview⟩ := look_link hr hreach hp h
      rw [ends_inr hhost, ends_inr hview]
      simp
  | succ n ih =>
    cases h : lookTrail (fs.subtree root node) followFinal p with
    | inl found =>
      obtain ⟨hhost, hview⟩ := look_found hr hreach hp h
      rw [ends_inl hhost, ends_inl hview]
    | inr link =>
      obtain ⟨hhost, hview⟩ := look_link hr hreach hp h
      have hplain := redirectTo_plain (lookTrail_link hp h)
      have hnext := (rerooted_iff hr (lookTrail_link hp h)).mpr (hl p .refl link h)
      rw [ends_inr hhost, ends_inr hview, resolved_redirect hu ht hr (link_plain hr hp h), hnext,
        resolved_unrooted hplain]
      simp only [Nat.add_right_cancel_iff, exists_eq_left']
      exact ih hplain (hl.next h)

/-- Every path looked up lies below the root, so every node found is one of the subtree. -/
theorem ends_inside (hu : task.isUser) (ht : task.root = some (render root))
    (hr : ∀ c ∈ root, Plain c) (hreach : lookResolved fs true (render root) = .inl (some node))
    (hp : ∀ c ∈ p, Plain c)
    (h : Ends (lookResolved fs followFinal) (resolved task true) (render (root ++ p)) n
      (some found)) :
    ∃ p', (∀ c ∈ p', Plain c) ∧
      lookResolved (fs.subtree root node) followFinal (render p') = .inl (some found) := by
  induction n generalizing p with
  | zero =>
    cases hl : lookTrail (fs.subtree root node) followFinal p with
    | inl result =>
      obtain ⟨hhost, hview⟩ := look_found hr hreach hp hl
      obtain ⟨-, rfl⟩ := (ends_inl hhost).mp h
      exact ⟨p, hp, hview⟩
    | inr link =>
      obtain ⟨hhost, -⟩ := look_link hr hreach hp hl
      obtain ⟨m, hm, -⟩ := (ends_inr hhost).mp h
      cases hm
  | succ n ih =>
    cases hl : lookTrail (fs.subtree root node) followFinal p with
    | inl result =>
      obtain ⟨hhost, -⟩ := look_found hr hreach hp hl
      obtain ⟨hn, -⟩ := (ends_inl hhost).mp h
      cases hn
    | inr link =>
      obtain ⟨hhost, -⟩ := look_link hr hreach hp hl
      obtain ⟨m, hm, he⟩ := (ends_inr hhost).mp h
      cases hm
      have hplain := link_plain hr hp hl
      rw [resolved_redirect hu ht hr hplain] at he
      unfold rerooted at he
      split at he
      · rename_i hbelow
        obtain ⟨q, hq⟩ := hbelow
        rw [← hq] at he hplain
        exact ih (fun c hc => hplain c (List.mem_append_right _ hc)) he
      · exact ih hplain he

theorem resolved_first (hu : task.isUser) (ht : task.root = some (render root))
    (hr : ∀ c ∈ root, Plain c)
    (hcwd : path.head? = some '/' ∨ task.cwd.head? = some '/' ∨ task.cwd = []) :
    resolved task false path = render (root ++ startPath task path) ∧
      resolved task.unrooted false path = render (startPath task path) := by
  have hnorm : vfsNormalizePath (vfsResolvePath task path) = render (startPath task path) := by
    rw [vfsNormalizePath, if_pos (vfsResolvePath_head hcwd)]
    rfl
  have hsame : vfsResolvePath task.unrooted path = vfsResolvePath task path := rfl
  constructor
  · rw [resolved, hnorm, vfsApplyTaskRoot_first hu ht hr startPath_plain]
  · rw [resolved, hsame, hnorm, vfsApplyTaskRoot]
    cases task.unrooted.isUser <;> rfl

/-- What a rooted task finds lies in the subtree. After a link it goes on with the path that the link
denotes there exactly when the link is `Rooted`, and where all links it meets are, what it finds is what
its path denotes in the subtree. -/
theorem chroot_namei (hu : task.isUser) (ht : task.root = some (render root))
    (hr : ∀ c ∈ root, Plain c) (hreach : lookResolved fs true (render root) = .inl (some node))
    (hcwd : path.head? = some '/' ∨ task.cwd.head? = some '/' ∨ task.cwd = []) :
    (∀ found, Namei fs task followFinal path (some found) →
      ∃ p, (∀ c ∈ p, Plain c) ∧
        lookResolved (fs.subtree root node) followFinal (render p) = .inl (some found)) ∧
    (∀ p link, (∀ c ∈ p, Plain c) →
      lookTrail (fs.subtree root node) followFinal p = .inr link →
      ∃ k, lookResolved fs followFinal (render (root ++ p)) = .inr k ∧
        (resolved task true k = render (root ++ redirectTo link) ↔ Rooted root link)) ∧
    (LinksRooted (fs.subtree root node) followFinal root (startPath task path) →
      ∀ result, Namei fs task followFinal path result ↔
        Namei (fs.subtree root node) task.unrooted followFinal path result) := by
  obtain ⟨hfirst, hview⟩ := resolved_first hu ht hr hcwd
  have hlater : ∀ (fs : Fs Node) (task : Task) i k, 0 < i →
      vfsNameiOnceDynamic fs task followFinal (i ≠ 0) k =
        lookResolved fs followFinal (resolved task true k) := by
    intro fs task i k hi
    simp [vfsNameiOnceDynamic, Nat.ne_of_gt hi]
  have hhost : vfsNameiOnceDynamic fs task followFinal (0 ≠ 0) path =
      lookResolved fs followFinal (render (root ++ startPath task path)) := by
    simp [vfsNameiOnceDynamic, hfirst]
  have hsub : vfsNameiOnceDynamic (fs.subtree root node) task.unrooted followFinal (0 ≠ 0) path =
      lookResolved (fs.subtree root node) followFinal (render (startPath task path)) := by
    simp [vfsNameiOnceDynamic, hview]
  refine ⟨?_, ?_, ?_⟩
  · intro found h
    obtain ⟨n, -, he⟩ := (returns_iff_ends (hlater fs task) hhost (Option.some_ne_none found)).mp h
    exact ends_inside hu ht hr hreach startPath_plain he
  · intro p link hp hl
    have hplain := lookTrail_link hp hl
    refine ⟨_, (look_link hr hreach hp hl).1, ?_⟩
    rw [resolved_redirect hu ht hr (link_plain hr hp hl), ← rerooted_iff hr hplain]
    exact render_inj (rerooted_plain hr (link_plain hr hp hl))
      (append_plain hr (redirectTo_plain hplain))
  · intro hl
    apply returns_congr
    intro result hne
    rw [returns_iff_ends (hlater fs task) hhost hne,
      returns_iff_ends (hlater (fs.subtree root node) task.unrooted) hsub hne]
    simp only [ends_subtree hu ht hr hreach startPath_plain hl]

end Rooted

def jail : Text := ['j', 'a', 'i', 'l']

/-- `/jail` holds a directory `jail` with a file `x`, a file `x`, a link `l` to `/jail/x` and a link
`m` to `x`; `/u/v` holds a directory `a` with a link `l` to `../../b`, and a file `b`. -/
def jailFs : Fs Nat where
  root := 0
  search _ := true
  finddir node name :=
    [((0, jail), 1), ((1, jail), 2), ((2, ['x']), 3), ((1, ['x']), 4), ((1, ['l']), 5),
      ((1, ['m']), 6), ((0, ['u']), 7), ((7, ['v']), 8), ((8, ['a']), 9), ((9, ['l']), 10),
      ((8, ['b']), 11)].lookup (node, name)
  ptr _ := none
  parent _ := none
  isSymlink node := node = 5 ∨ node = 6 ∨ node = 10
  readlink node :=
    [(5, ['/'] ++ jail ++ ['/', 'x']), (6, ['x']),
      (10, ['.', '.', '/', '.', '.', '/', 'b'])].lookup node
  mounts := []
  squashfsAccessBlocked := false

def rootedTask (root : List Text) : Task := ⟨true, some (render root), []⟩

theorem jailed_link_follows :
    Namei jailFs (rootedTask [jail]) true ['/', 'm'] (some 4) := by
  have hfirst : lookTrail (jailFs.subtree [jail] 1) true
      (startPath (rootedTask [jail]) ['/', 'm']) = .inr ([], ['x'], []) := by decide +kernel
  have hnext : lookTrail (jailFs.subtree [jail] 1) true (redirectTo ([], ['x'], [])) =
      .inl (some 4) := by decide +kernel
  have hrooted : Rooted [jail] ([], ['x'], []) := .inr (.inl rfl)
  have hsame : ∀ result, Namei jailFs (rootedTask [jail]) true ['/', 'm'] result ↔
      Namei (jailFs.subtree [jail] 1) (rootedTask [jail]).unrooted true ['/', 'm'] result :=
    (chroot_namei rfl rfl (by decide) (by decide +kernel) (by decide)).2.2
      (linksRooted_link hfirst hrooted (linksRooted_found hnext))
  exact (hsame _).mpr ⟨2, by decide +kernel⟩

/-- A target that begins with the root's text is not taken below the root, and one that climbs above
`/u/v` keeps the component `u`. -/
theorem jailed_links_misread :
    (Namei jailFs (rootedTask [jail]) true ['/', 'l'] (some 4) ∧
      Namei (jailFs.subtree [jail] 1) (rootedTask [jail]).unrooted true ['/', 'l'] (some 3)) ∧
    (Namei jailFs (rootedTask [['u'], ['v']]) true ['/', 'a', '/', 'l'] none ∧
      Namei (jailFs.subtree [['u'], ['v']] 8) (rootedTask [['u'], ['v']]).unrooted true
        ['/', 'a', '/', 'l'] (some 11)) ∧
    ¬ ∀ result, Namei jailFs (rootedTask [jail]) true ['/', 'l'] result ↔
      Namei (jailFs.subtree [jail] 1) (rootedTask [jail]).unrooted true ['/', 'l'] result := by
  have hhost : Namei jailFs (rootedTask [jail]) true ['/', 'l'] (some 4) := ⟨2, by decide +kernel⟩
  have hview : Namei (jailFs.subtree [jail] 1) (rootedTask [jail]).unrooted true ['/', 'l'] (some 3) :=
    ⟨2, by decide +kernel⟩
  refine ⟨⟨hhost, hview⟩, ⟨⟨2, by decide +kernel⟩, ⟨2, by decide +kernel⟩⟩, ?_⟩
  intro h
  have := ((h _).mp hhost).unique hview
  cases this

end Lebirun.Vfs
