import Lebirun.Lib.Worklist

/-!
The areas of a task (`file_maps`), how one is cut in two, and the walks over them which unmap,
advise and protect a range.
-/

namespace Lebirun.Mman
set_option autoImplicit true
open Worklist

abbrev int32Max : Nat := 2 ^ 31 - 1

/-- The protection flags and the map flags of an area. -/
structure Marks where
  flags : BitVec 64
  mapFlags : BitVec 32
deriving DecidableEq

structure Area extends Marks where
  node : Option Nat
  vaddr : Nat
  memsz : Nat
  filesz : Nat
  offset : Nat
  nonempty : 0 < memsz
  below : vaddr + memsz < 2 ^ 64
  filled : filesz ≤ memsz
deriving DecidableEq

namespace Area

/-- `area_end` in the source. -/
def stop (a : Area) : Nat := a.vaddr + a.memsz

def fileEnd (a : Area) : Nat := a.vaddr + a.filesz

/-- The part before an address inside the area. -/
def left (a : Area) (address : Nat) (h : a.vaddr < address ∧ address < a.stop) : Area :=
  { a with
    memsz := address - a.vaddr
    filesz := if address - a.vaddr < a.filesz then address - a.vaddr else a.filesz
    nonempty := by omega
    below := by
      have := a.below
      have : a.stop = a.vaddr + a.memsz := rfl
      omega
    filled := by split <;> omega }

/-- The part from an address inside the area. -/
def right (a : Area) (address : Nat) (h : a.vaddr < address ∧ address < a.stop) : Area :=
  { a with
    vaddr := address
    memsz := a.stop - address
    filesz := if address < a.fileEnd then a.fileEnd - address else 0
    offset := (a.offset + address - a.vaddr) % 2 ^ 64
    nonempty := by omega
    below := by
      have := a.below
      have : a.stop = a.vaddr + a.memsz := rfl
      omega
    filled := by
      have := a.filled
      have : a.stop = a.vaddr + a.memsz := rfl
      have : a.fileEnd = a.vaddr + a.filesz := rfl
      split <;> omega }

/-- The two areas that `task_split_vm_area` makes of one, if the address is inside it. -/
def splitAt (a : Area) (address : Nat) : Option (Area × Area) :=
  if h : a.vaddr < address ∧ address < a.stop then some (a.left address h, a.right address h)
  else none

/-- The area with other flags. -/
def mark (a : Area) (upd : Marks → Marks) : Area := { a with toMarks := upd a.toMarks }

@[simp] theorem left_vaddr : (left a address h).vaddr = a.vaddr := rfl
@[simp] theorem left_marks : (left a address h).toMarks = a.toMarks := rfl
@[simp] theorem right_vaddr : (right a address h).vaddr = address := rfl
@[simp] theorem right_marks : (right a address h).toMarks = a.toMarks := rfl
@[simp] theorem mark_vaddr : (mark a upd).vaddr = a.vaddr := rfl
@[simp] theorem mark_stop : (mark a upd).stop = a.stop := rfl

@[simp] theorem left_stop : (left a address h).stop = address := by
  show a.vaddr + (address - a.vaddr) = address
  omega

@[simp] theorem right_stop : (right a address h).stop = a.stop := by
  show address + (a.stop - address) = a.stop
  omega

theorem splitAt_some {a : Area} (h : a.splitAt address = some (l, r)) :
    ∃ hi, l = a.left address hi ∧ r = a.right address hi := by
  unfold splitAt at h
  split at h
  · simp_all
  · simp at h

theorem vaddr_lt_stop (a : Area) : a.vaddr < a.stop := by
  have := a.nonempty
  show a.vaddr < a.vaddr + a.memsz
  omega

theorem splitAt_none {a : Area} (h : a.splitAt address = none) :
    ¬(a.vaddr < address ∧ address < a.stop) := by
  intro hi
  simp [splitAt, hi] at h

end Area

/-! ### The array of areas -/

/-- `task_ensure_file_map_capacity`: the capacity afterwards. Whether an array of a length can be
allocated is data of the call. -/
def taskEnsureFileMapCapacity (grants : Nat → Bool) (capacity needed : Nat) : Option Nat :=
  if int32Max < needed then none
  else if needed ≤ capacity then some capacity
  else if grants needed then some needed
  else none

/-- The lengths that an array of the given capacity may reach. -/
def fits (grants : Nat → Bool) (capacity n : Nat) : Bool :=
  decide (n ≤ int32Max) && (decide (n ≤ capacity) || grants n)

/-- The array has held `n` areas, and has grown from capacity `start` to `c`. -/
def Room (grants : Nat → Bool) (start c n : Nat) : Prop :=
  n ≤ c ∧ start ≤ c ∧ c ≤ int32Max ∧ ∀ m, m ≤ c → m ≤ start ∨ grants m = true

theorem growth (grants : Nat → Bool) (start : Nat) :
    Turns.Growth (taskEnsureFileMapCapacity grants) (fits grants start) (Room grants start) where
  down := by
    intro c n m ⟨hn, hs, hc, hg⟩ hm
    exact ⟨hm.trans hn, hs, hc, hg⟩
  room := by
    intro c n ⟨hn, hs, hc, hg⟩ hf
    simp only [fits, Bool.and_eq_true, Bool.or_eq_true, decide_eq_true_eq] at hf
    obtain ⟨hmax, hfit⟩ := hf
    rw [taskEnsureFileMapCapacity, if_neg (by omega)]
    by_cases hle : n + 1 ≤ c
    · exact ⟨c, if_pos hle, hle, hs, hc, hg⟩
    · have hgr : grants (n + 1) = true := hfit.resolve_left (by omega)
      refine ⟨n + 1, by rw [if_neg hle, if_pos hgr], le_refl _, by omega, hmax, ?_⟩
      intro m hm
      by_cases he : m = n + 1
      · exact .inr (he ▸ hgr)
      · exact hg m (by omega)
  full := by
    intro c n ⟨hn, hs, hc, hg⟩ hf
    rw [taskEnsureFileMapCapacity]
    split
    · rfl
    · rename_i hmax
      have hno : ¬(n + 1 ≤ start ∨ grants (n + 1) = true) := by
        intro hor
        have hfit : fits grants start (n + 1) = true := by
          simp only [fits, Bool.and_eq_true, Bool.or_eq_true, decide_eq_true_eq]
          exact ⟨by omega, hor⟩
        exact absurd (hfit.symm.trans hf) (by simp)
      rw [if_neg (fun hle => hno (hg _ hle)), if_neg (fun hgr => hno (.inr hgr))]

/-- `file_maps` with `file_map_capacity`. -/
structure FileMaps where
  maps : List Area
  capacity : Nat
  small : capacity ≤ int32Max
  held : maps.length ≤ capacity

namespace FileMaps

def fits (m : FileMaps) (grants : Nat → Bool) : Nat → Bool := Mman.fits grants m.capacity

theorem room (m : FileMaps) : Room grants m.capacity m.capacity m.maps.length :=
  ⟨m.held, le_refl _, m.small, fun _ h => .inl h⟩

/-- `task_reserve_vm_areas` -/
def reserve (grants : Nat → Bool) (m : FileMaps) (additional : Nat) : Option FileMaps :=
  if int32Max - additional < m.maps.length then none
  else
    match h : taskEnsureFileMapCapacity grants m.capacity (m.maps.length + additional) with
    | none => none
    | some capacity => some
        { m with
          capacity := capacity
          small := by
            have := m.small
            unfold taskEnsureFileMapCapacity at h
            grind
          held := by
            have := m.held
            unfold taskEnsureFileMapCapacity at h
            grind }

/-- A walk over the areas, each cut growing the array by one. -/
def walk (grants : Nat → Bool) (t : Turns Area) (m : FileMaps) : Bool × FileMaps :=
  let result := t.walk (taskEnsureFileMapCapacity grants) [] m.maps m.capacity
  have hroom := Turns.walk_room (growth grants m.capacity) [] m.maps m.capacity
    (by rw [List.length_nil, Nat.zero_add]; exact m.room)
  (result.1, ⟨result.2.1, result.2.2, hroom.2.2.1, hroom.1⟩)

theorem walk_ends (grants : Nat → Bool) (t : Turns Area) (m : FileMaps) :
    t.Ends (m.fits grants) m.maps.length m.maps (t.visits m.maps)
      ((m.walk grants t).1, (m.walk grants t).2.maps, (m.walk grants t).2.capacity) := by
  have := Turns.walk_ends (t := t) (growth grants m.capacity) [] m.maps m.capacity
    (by rw [List.length_nil, Nat.zero_add]; exact m.room)
  rwa [List.length_nil, Nat.zero_add, List.nil_append] at this

/-- A change of one area in place. -/
def update (m : FileMaps) (index : Nat) (f : Area → Area) : FileMaps :=
  { m with
    maps := m.maps.modify index f
    held := by
      rw [List.length_modify]
      exact m.held }

end FileMaps

/-! ### The walks -/

/-- The body of the loop in `task_unmap_vm_areas`. -/
def unmapTurn (vaddr stop : Nat) (area : Area) : Turn Area :=
  if ho : stop ≤ area.vaddr ∨ area.stop ≤ vaddr then .settle (some area)
  else if hc : vaddr ≤ area.vaddr ∧ area.stop ≤ stop then .settle none
  else if hl : vaddr ≤ area.vaddr then .settle (some (area.right stop (by omega)))
  else if hr : area.stop ≤ stop then .settle (some (area.left vaddr (by omega)))
  else .cut (area.left vaddr (by omega)) (area.right stop (by omega))

/-- The body of the loops in `task_advise_vm_areas` and `task_protect_vm_areas`: an area which
starts before the range is cut at its start and left alone, and its right part is met later. -/
def restrictTurn (upd : Marks → Marks) (vaddr stop : Nat) (area : Area) : Turn Area :=
  if stop ≤ area.vaddr ∨ area.stop ≤ vaddr then .settle (some area)
  else
    match area.splitAt vaddr with
    | some (left, right) => .cut left right
    | none =>
      match area.splitAt stop with
      | some (left, right) => .cut (left.mark upd) right
      | none => .settle (some (area.mark upd))

theorem unmapTurn_cut {a : Area} (h : unmapTurn vaddr stop a = .cut l r) :
    ∃ hl hr, l = a.left vaddr hl ∧ r = a.right stop hr := by
  unfold unmapTurn at h
  split_ifs at h
  obtain ⟨rfl, rfl⟩ := Turn.cut.inj h
  exact ⟨_, _, rfl, rfl⟩

theorem restrictTurn_cut {a : Area} (h : restrictTurn upd vaddr stop a = .cut l r) :
    (∃ hi, l = a.left vaddr hi ∧ r = a.right vaddr hi ∧ a.vaddr < stop) ∨
      (∃ hi, l = (a.left stop hi).mark upd ∧ r = a.right stop hi ∧ vaddr ≤ a.vaddr) := by
  unfold restrictTurn at h
  split_ifs at h with ho
  cases hv : a.splitAt vaddr with
  | some parts =>
    rw [hv] at h
    obtain ⟨rfl, rfl⟩ := Turn.cut.inj h
    obtain ⟨hi, hl, hr⟩ := Area.splitAt_some hv
    exact .inl ⟨hi, hl, hr, by omega⟩
  | none =>
    have hle := Area.splitAt_none hv
    cases hs : a.splitAt stop with
    | some parts =>
      rw [hv, hs] at h
      obtain ⟨rfl, rfl⟩ := Turn.cut.inj h
      obtain ⟨hi, hl, hr⟩ := Area.splitAt_some hs
      exact .inr ⟨hi, by rw [hl], hr, by omega⟩
    | none =>
      rw [hv, hs] at h
      cases h

def unmapTurns (vaddr stop : Nat) : Turns Area where
  turn := unmapTurn vaddr stop
  weight := fun a => if a.vaddr < stop then 1 else 0
  lighter := by
    intro a l r h
    obtain ⟨hl, hr, rfl, rfl⟩ := unmapTurn_cut h
    have := hr.1
    have : (a.right stop hr).vaddr = stop := rfl
    split_ifs <;> omega

def restrictTurns (upd : Marks → Marks) (vaddr stop : Nat) : Turns Area where
  turn := restrictTurn upd vaddr stop
  weight := fun a => (if a.vaddr < vaddr then 1 else 0) + (if a.vaddr < stop then 1 else 0)
  lighter := by
    intro a l r h
    obtain ⟨hi, rfl, rfl, hlt⟩ | ⟨hi, rfl, rfl, hle⟩ := restrictTurn_cut h
    · have : (a.right vaddr hi).vaddr = vaddr := rfl
      split_ifs <;> omega
    · have : (a.right stop hi).vaddr = stop := rfl
      split_ifs <;> omega

/-- What the walks return: 0, or -1 where the array could not grow. -/
def status (result : Bool × FileMaps) : Int × FileMaps := (if result.1 then 0 else -1, result.2)

def taskUnmapVmAreas (grants : Nat → Bool) (m : FileMaps) (vaddr size : Nat) : Int × FileMaps :=
  if size = 0 ∨ 2 ^ 64 ≤ vaddr + size then (-1, m)
  else status (m.walk grants (unmapTurns vaddr (vaddr + size)))

/-- `map_flags` with the given bits set and cleared. -/
def adviseMarks (bits clear : BitVec 32) (marks : Marks) : Marks :=
  { marks with mapFlags := (marks.mapFlags &&& ~~~clear) ||| bits }

def taskAdviseVmAreas (grants : Nat → Bool) (m : FileMaps) (vaddr size : Nat)
    (bits clear : BitVec 32) : Int × FileMaps :=
  if size = 0 ∨ 2 ^ 64 ≤ vaddr + size then (-1, m)
  else
    match m.reserve grants 2 with
    | none => (-1, m)
    | some m => status (m.walk grants (restrictTurns (adviseMarks bits clear) vaddr (vaddr + size)))

abbrev vmmPtePresent : BitVec 64 := 0x001
abbrev vmmPteWrite : BitVec 64 := 0x002
abbrev vmmPteUser : BitVec 64 := 0x004
abbrev vmmPteCow : BitVec 64 := 0x200
abbrev vmmPteNofree : BitVec 64 := 0x400
abbrev vmmPteShared : BitVec 64 := 0x800
abbrev vmmPteNx : BitVec 64 := 0x8000000000000000

abbrev taskVmaShared : BitVec 32 := 0x0002
abbrev taskVmaAnonymous : BitVec 32 := 0x0004
abbrev taskVmaFile : BitVec 32 := 0x0008
abbrev taskVmaDevice : BitVec 32 := 0x0010
abbrev taskVmaMaywrite : BitVec 32 := 0x0020
abbrev taskVmaClean : BitVec 32 := 0x0040
abbrev taskVmaDontfork : BitVec 32 := 0x0080
abbrev taskVmaWipeonfork : BitVec 32 := 0x0100
abbrev taskVmaShm : BitVec 32 := 0x0200

def protectMarks (flags : BitVec 64) (marks : Marks) : Marks :=
  { flags := flags ||| (marks.flags &&& (vmmPteShared ||| vmmPteNofree))
    mapFlags := if flags &&& vmmPteWrite ≠ 0 then marks.mapFlags &&& ~~~taskVmaClean
      else marks.mapFlags }

def taskProtectVmAreas (grants : Nat → Bool) (m : FileMaps) (vaddr size : Nat)
    (flags : BitVec 64) : Int × FileMaps :=
  if size = 0 ∨ 2 ^ 64 ≤ vaddr + size then (-1, m)
  else status (m.walk grants (restrictTurns (protectMarks flags) vaddr (vaddr + size)))

/-! ### Cutting out a range -/

/-- `task_split_vm_area`; nothing where it returns -1. -/
def taskSplitVmArea (grants : Nat → Bool) (m : FileMaps) (index address : Nat) :
    Option FileMaps :=
  match m.maps[index]? with
  | none => none
  | some area =>
    match area.splitAt address with
    | none => some m
    | some (left, right) =>
      match h : taskEnsureFileMapCapacity grants m.capacity (m.maps.length + 1) with
      | none => none
      | some capacity => some
          { maps := m.maps.set index left ++ [right]
            capacity := capacity
            small := by
              have := m.small
              unfold taskEnsureFileMapCapacity at h
              grind
            held := by
              unfold taskEnsureFileMapCapacity at h
              simp only [List.length_append, List.length_set, List.length_singleton]
              grind }

/-- `task_isolate_vm_area`: the index of the area which is the range afterwards. -/
def taskIsolateVmArea (grants : Nat → Bool) (m : FileMaps) (address size : Nat) :
    Option Nat × FileMaps :=
  if size = 0 ∨ 2 ^ 64 ≤ address + size then (none, m)
  else
    match m.maps.findIdx? fun a => a.vaddr ≤ address ∧ address + size ≤ a.stop with
    | none => (none, m)
    | some i =>
      if (m.maps[i]?.any fun a => a.vaddr < address) then
        match taskSplitVmArea grants m i address with
        | none => (none, m)
        | some m =>
          match taskSplitVmArea grants m (m.maps.length - 1) (address + size) with
          | none => (none, m)
          | some m' => (some (m.maps.length - 1), m')
      else
        match taskSplitVmArea grants m i (address + size) with
        | none => (none, m)
        | some m => (some i, m)

end Lebirun.Mman
