import Mathlib

namespace Lebirun.Vfs
set_option autoImplicit true

/-- A C string before its terminating zero. -/
abbrev Text := List Char

def addComponent (w : Text) (l : List Text) : List Text := if w = [] then l else w :: l

/-- The characters before the first slash, and the components after it. -/
def scan : Text → Text × List Text
  | [] => ([], [])
  | c :: t => if c = '/' then ([], addComponent (scan t).1 (scan t).2) else (c :: (scan t).1, (scan t).2)

/-- The non-empty runs between slashes, as the loops over a path find them. -/
def components (t : Text) : List Text := addComponent (scan t).1 (scan t).2

def dot : Text := ['.']

def dotdot : Text := ['.', '.']

/-- One component of `vfs_normalize_path`; the text at `dst` is kept as its components. -/
def place (stack : List Text) (comp : Text) : List Text :=
  if comp = dot then stack
  else if comp = dotdot then stack.dropLast
  else stack ++ [comp]

def collapse (comps : List Text) : List Text := comps.foldl place []

/-- Each component after its slash. -/
def tailText (comps : List Text) : Text := comps.flatMap ('/' :: ·)

/-- The text of an absolute normalised path. -/
def render (comps : List Text) : Text := if comps = [] then ['/'] else tailText comps

def vfsNormalizePath (path : Text) : Text :=
  if path.head? = some '/' then render (collapse (components path)) else path

/-- `strncmp(path, root, root_len) == 0` with a component's end after it. -/
def startsAt (path root : Text) : Bool :=
  root.isPrefixOf path &&
    ((path.drop root.length).head? = none || (path.drop root.length).head? = some '/')

/-- A component that normalising keeps. -/
def Plain (c : Text) : Prop := c ≠ [] ∧ '/' ∉ c ∧ c ≠ dot ∧ c ≠ dotdot

instance : DecidablePred Plain := fun _ => inferInstanceAs (Decidable (_ ∧ _ ∧ _ ∧ _))

theorem addComponent_append : addComponent w (l ++ m) = addComponent w l ++ m := by
  unfold addComponent
  split <;> rfl

theorem scan_append (a b : Text) :
    scan (a ++ '/' :: b) = ((scan a).1, (scan a).2 ++ components b) := by
  induction a with
  | nil => simp [scan, components]
  | cons c a ih =>
    by_cases hc : c = '/'
    · simp [scan, hc, ih, addComponent_append]
    · simp [scan, hc, ih]

@[simp]
theorem components_append (a b : Text) :
    components (a ++ '/' :: b) = components a ++ components b := by
  simp [components, scan_append, addComponent_append]

@[simp]
theorem components_slash (b : Text) : components ('/' :: b) = components b := by
  simp [components, scan, addComponent]

theorem scan_plain {c : Text} (h : '/' ∉ c) : scan c = (c, []) := by
  induction c with
  | nil => rfl
  | cons x c ih =>
    simp only [List.mem_cons, not_or] at h
    simp [scan, ih h.2, Ne.symm h.1]

theorem components_plain {c : Text} (h : '/' ∉ c) (hne : c ≠ []) : components c = [c] := by
  simp [components, scan_plain h, addComponent, hne]

theorem mem_scan {t : Text} : '/' ∉ (scan t).1 ∧ ∀ c ∈ (scan t).2, c ≠ [] ∧ '/' ∉ c := by
  induction t with
  | nil => simp [scan]
  | cons x t ih =>
    by_cases hx : x = '/'
    · simp only [scan, hx, if_true, addComponent]
      constructor
      · simp
      · intro c hc
        split at hc
        · exact ih.2 c hc
        · rename_i hw
          obtain rfl | hc := List.mem_cons.mp hc
          · exact ⟨hw, ih.1⟩
          · exact ih.2 c hc
    · simp only [scan, hx, if_false]
      constructor
      · simp [ih.1, Ne.symm hx]
      · exact ih.2

theorem mem_components {t c : Text} (h : c ∈ components t) : c ≠ [] ∧ '/' ∉ c := by
  have hs := mem_scan (t := t)
  unfold components addComponent at h
  split at h
  · exact hs.2 c h
  · rename_i hw
    obtain rfl | h := List.mem_cons.mp h
    · exact ⟨hw, hs.1⟩
    · exact hs.2 c h

@[simp] theorem tailText_nil : tailText [] = [] := rfl

@[simp]
theorem tailText_cons : tailText (c :: cs) = '/' :: (c ++ tailText cs) := rfl

theorem tailText_append : tailText (as ++ bs) = tailText as ++ tailText bs := by
  simp [tailText]

theorem components_tailText (x : Text) (h : ∀ c ∈ cs, c ≠ [] ∧ '/' ∉ c) :
    components (x ++ tailText cs) = components x ++ cs := by
  induction cs generalizing x with
  | nil => simp
  | cons c cs ih =>
    obtain ⟨hc, hcs⟩ := List.forall_mem_cons.mp h
    rw [tailText_cons, components_append, ih c hcs, components_plain hc.2 hc.1]
    rfl

theorem Plain.run {cs : List Text} (h : ∀ c ∈ cs, Plain c) : ∀ c ∈ cs, c ≠ [] ∧ '/' ∉ c :=
  fun c hc => ⟨(h c hc).1, (h c hc).2.1⟩

theorem render_cons : render (c :: cs) = tailText (c :: cs) := rfl

theorem render_of_ne (h : cs ≠ []) : render cs = tailText cs := if_neg h

@[simp]
theorem head_render : (render cs).head? = some '/' := by
  cases cs <;> rfl

theorem components_render (h : ∀ c ∈ cs, Plain c) : components (render cs) = cs := by
  cases cs with
  | nil => simp [render, components, scan, addComponent]
  | cons c cs =>
    rw [render_cons]
    simpa [components, scan, addComponent] using components_tailText [] (Plain.run h)

theorem foldl_place {cs stack : List Text} (h : ∀ c ∈ cs, Plain c) : cs.foldl place stack = stack ++ cs := by
  induction cs generalizing stack with
  | nil => simp
  | cons c cs ih =>
    obtain ⟨hc, hcs⟩ := List.forall_mem_cons.mp h
    rw [List.foldl_cons, ih hcs, place, if_neg hc.2.2.1, if_neg hc.2.2.2, List.append_assoc]
    rfl

theorem collapse_plain (h : ∀ c ∈ cs, Plain c) : collapse cs = cs := by
  rw [collapse, foldl_place h, List.nil_append]

theorem collapse_append_plain (h : ∀ c ∈ as, Plain c) : collapse (as ++ bs) = bs.foldl place as := by
  rw [collapse, List.foldl_append, ← collapse, collapse_plain h]

theorem place_plain (hs : ∀ c ∈ stack, Plain c) (hc : comp ≠ [] ∧ '/' ∉ comp) :
    ∀ c ∈ place stack comp, Plain c := by
  unfold place
  split
  · exact hs
  · split
    · exact fun c h => hs c (List.dropLast_subset _ h)
    · rename_i hdot hdotdot
      intro c h
      obtain h | h := List.mem_append.mp h
      · exact hs c h
      · obtain rfl := List.mem_singleton.mp h
        exact ⟨hc.1, hc.2, hdot, hdotdot⟩

theorem foldl_place_plain {cs stack : List Text} (hs : ∀ c ∈ stack, Plain c) (hc : ∀ c ∈ cs, c ≠ [] ∧ '/' ∉ c) :
    ∀ c ∈ cs.foldl place stack, Plain c := by
  induction cs generalizing stack with
  | nil => exact hs
  | cons c cs ih =>
    obtain ⟨h, hcs⟩ := List.forall_mem_cons.mp hc
    exact ih (place_plain hs h) hcs

theorem collapse_is_plain (hc : ∀ c ∈ cs, c ≠ [] ∧ '/' ∉ c) : ∀ c ∈ collapse cs, Plain c :=
  foldl_place_plain (by simp) hc

theorem vfsNormalizePath_render (h : ∀ c ∈ cs, Plain c) :
    vfsNormalizePath (render cs) = render cs := by
  rw [vfsNormalizePath, if_pos head_render, components_render h, collapse_plain h]

theorem startsAt_nil (p : Text) : startsAt p [] = true ↔ p = [] ∨ p.head? = some '/' := by
  cases p <;> simp [startsAt]

theorem startsAt_cons : startsAt (y :: p) (x :: t) = true ↔ x = y ∧ startsAt p t = true := by
  simp [startsAt, and_assoc]

theorem not_startsAt_nil : startsAt [] (x :: t) = false := rfl

/-- Inside a component nothing ends, so a text that starts there covers it. -/
theorem startsAt_component {c : Text} (hc : '/' ∉ c) :
    startsAt (c ++ p) t = true ↔ ∃ u, t = c ++ u ∧ startsAt p u = true := by
  induction c generalizing t with
  | nil => simp
  | cons x c ih =>
    simp only [List.mem_cons, not_or] at hc
    cases t with
    | nil =>
      rw [startsAt_nil]
      simp [Ne.symm hc.1]
    | cons y t =>
      rw [List.cons_append, startsAt_cons, ih hc.2]
      simp only [List.cons_append, List.cons.injEq]
      constructor
      · intro h
        obtain ⟨rfl, u, rfl, hu⟩ := h
        exact ⟨u, ⟨rfl, rfl⟩, hu⟩
      · intro h
        obtain ⟨u, ⟨rfl, rfl⟩, hu⟩ := h
        exact ⟨rfl, u, rfl, hu⟩

/-- A text that a normalised path starts with is that of a prefix of its components. -/
theorem startsAt_tailText (h : ∀ c ∈ cs, Plain c) :
    startsAt (tailText cs) t = true ↔ ∃ rs, rs <+: cs ∧ t = tailText rs := by
  induction cs generalizing t with
  | nil =>
    cases t with
    | nil => simp [startsAt_nil]
    | cons x t => simp [not_startsAt_nil]
  | cons c cs ih =>
    obtain ⟨hc, hcs⟩ := List.forall_mem_cons.mp h
    cases t with
    | nil =>
      simp only [startsAt_nil, tailText_cons, List.head?_cons, or_true, true_iff]
      exact ⟨[], List.nil_prefix, rfl⟩
    | cons x t =>
      rw [tailText_cons, startsAt_cons, startsAt_component hc.2.1]
      constructor
      · intro h
        obtain ⟨rfl, u, rfl, hu⟩ := h
        obtain ⟨rs, hrs, rfl⟩ := (ih hcs).mp hu
        exact ⟨c :: rs, by simpa using hrs, rfl⟩
      · intro h
        obtain ⟨rs, hrs, ht⟩ := h
        cases rs with
        | nil => simp at ht
        | cons c' rs =>
          obtain ⟨rfl, hp⟩ := List.cons_prefix_cons.mp hrs
          rw [tailText_cons, List.cons.injEq] at ht
          exact ⟨ht.1, tailText rs, ht.2, (ih hcs).mpr ⟨rs, hp, rfl⟩⟩

theorem tailText_inj (h₁ : ∀ c ∈ as, Plain c) (h₂ : ∀ c ∈ bs, Plain c)
    (h : tailText as = tailText bs) : as = bs := by
  have ha := components_tailText [] (Plain.run h₁)
  have hb := components_tailText [] (Plain.run h₂)
  simp only [List.nil_append, components, scan, addComponent, if_true] at ha hb
  rw [← ha, ← hb, h]

theorem startsAt_render (hc : ∀ c ∈ cs, Plain c) (hr : ∀ c ∈ rs, Plain c) (hne : rs ≠ []) :
    startsAt (render cs) (render rs) = true ↔ rs <+: cs := by
  rw [render_of_ne hne]
  cases cs with
  | nil =>
    obtain ⟨r, rs, rfl⟩ := List.exists_cons_of_ne_nil hne
    have hr₁ := (List.forall_mem_cons.mp hr).1.1
    obtain ⟨x, r, rfl⟩ := List.exists_cons_of_ne_nil hr₁
    simp [render, startsAt]
  | cons c cs =>
    rw [render_cons, startsAt_tailText hc]
    constructor
    · intro h
      obtain ⟨rs', hp, ht⟩ := h
      have := tailText_inj hr (fun c h => hc c (hp.subset h)) ht
      exact this ▸ hp
    · intro h
      exact ⟨rs, h, rfl⟩

end Lebirun.Vfs
