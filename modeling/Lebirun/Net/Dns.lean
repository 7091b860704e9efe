import Mathlib
import Lebirun.Lib.Run

namespace Lebirun.Net
open Machine
set_option autoImplicit true

/-- A C string: its bytes before the terminating zero. -/
structure CName where
  bytes : List UInt8
  noNul : 0 ∉ bytes
  deriving DecidableEq

/-- What the copy loop of `dns_cache_add` leaves in `name[256]`. -/
def CName.stored (n : CName) : CName :=
  ⟨n.bytes.take 255, fun h => n.noNul (List.mem_of_mem_take h)⟩

abbrev DNS_CACHE_TTL : BitVec 64 := 300000

structure CacheEntry where
  name : CName := ⟨[], nofun⟩
  ipv4 : BitVec 32 := 0
  hasIpv4 : Bool := false
  timestamp : BitVec 64 := 0
  ttl : BitVec 64 := 0
  deriving DecidableEq

/-- The expiry test of `dns_cache_lookup`, with its 64-bit product. -/
def CacheEntry.fresh (e : CacheEntry) (now : BitVec 64) : Bool :=
  now - e.timestamp < e.ttl * 1000 && now - e.timestamp < DNS_CACHE_TTL

def CacheEntry.holds (e : CacheEntry) (name : CName) : Bool :=
  e.hasIpv4 && e.name = name

/-- `dns_cache` with its capacity, empty when the pointer is null, and `net_ticks`. -/
structure Dns where
  cache : List CacheEntry := []
  ticks : BitVec 64 := 0

def lookupFrom (now : BitVec 64) (name : CName) :
    List CacheEntry → Option (BitVec 32) × List CacheEntry
  | [] => (none, [])
  | e :: l =>
    if e.holds name then
      if e.fresh now then (some e.ipv4, e :: l)
      else
        -- the slot is freed and the scan goes on
        ((lookupFrom now name l).1, { e with hasIpv4 := false } :: (lookupFrom now name l).2)
    else ((lookupFrom now name l).1, e :: (lookupFrom now name l).2)

def dnsCacheLookup (s : Dns) (name : CName) : Option (BitVec 32) × Dns :=
  ((lookupFrom s.ticks name s.cache).1,
    { s with cache := (lookupFrom s.ticks name s.cache).2 })

def dnsEnsureCache (mem : Bool) (cache : List CacheEntry) : Option (List CacheEntry) :=
  if cache ≠ [] then some cache else if mem then some [{}] else none

/-- `dns_grow_cache` through `krealloc_grow_array`, which zeroes what it adds. -/
def dnsGrowCache (mem : Bool) (cache : List CacheEntry) : Option (List CacheEntry) :=
  if cache.length = 0 then if mem then some [{}] else none
  else if cache.length > (2 ^ 31 - 1) / 2 then none
  else if mem then some (cache ++ List.replicate cache.length ({} : CacheEntry)) else none

/-- The scan of `dns_cache_add`: the slot it selects, and the oldest slot it has seen. -/
def selectSlot (name : CName) : List CacheEntry → Nat → Nat → BitVec 64 → Option Nat × Nat
  | [], _, oldestIdx, _ => (none, oldestIdx)
  | e :: l, i, oldestIdx, oldestTime =>
    if e.holds name then (some i, oldestIdx)
    else if !e.hasIpv4 then (some i, oldestIdx)
    else if e.timestamp < oldestTime then selectSlot name l (i + 1) i e.timestamp
    else selectSlot name l (i + 1) oldestIdx oldestTime

/-- The array `dns_cache_add` writes into and the slot it writes. -/
def addSlot (mem : Bool) (name : CName) (cache : List CacheEntry) : List CacheEntry × Nat :=
  match selectSlot name cache 0 0 (BitVec.allOnes 64) with
  | (some i, _) => (cache, i)
  | (none, oldestIdx) =>
    match dnsGrowCache mem cache with
    | some grown => (grown, cache.length)
    | none => (cache, oldestIdx)

def addedEntry (now : BitVec 64) (name : CName) (ip : BitVec 32) (ttl : BitVec 64) : CacheEntry :=
  { name := name.stored, ipv4 := ip, hasIpv4 := true, timestamp := now, ttl := ttl }

def dnsCacheAdd (mem : Bool) (s : Dns) (name : CName) (ip : BitVec 32) (ttl : BitVec 64) : Dns :=
  match dnsEnsureCache mem s.cache with
  | none => s
  | some cache =>
    { s with
      cache := (addSlot mem name cache).1.set (addSlot mem name cache).2
        (addedEntry s.ticks name ip ttl) }

inductive DnsOp where
  | tick (now : BitVec 64)
  | add (mem : Bool) (name : CName) (ip : BitVec 32) (ttl : BitVec 64)
  | lookup (name : CName)

def dnsStep (s : Dns) : DnsOp → Dns
  | .tick now => { s with ticks := now }
  | .add mem name ip ttl => dnsCacheAdd mem s name ip ttl
  | .lookup name => (dnsCacheLookup s name).2

def dnsRun (ops : List DnsOp) : Dns := ops.foldl dnsStep {}

/-- Time does not go back, and every allocation of the cache succeeds. -/
def DnsOp.Legal (s : Dns) : DnsOp → Prop
  | .tick now => s.ticks ≤ now
  | .add mem name _ _ => ∃ cache, dnsEnsureCache mem s.cache = some cache ∧
      ((selectSlot name cache 0 0 (BitVec.allOnes 64)).1 = none →
        (dnsGrowCache mem cache).isSome)
  | .lookup _ => True

/-- The product with 1000 keeps the meaning of the lifetime under the cap of `DNS_CACHE_TTL`. -/
def TtlPlain (ttl : BitVec 64) : Prop :=
  ttl.toNat * 1000 < 2 ^ 64 ∨ DNS_CACHE_TTL ≤ ttl * 1000

/-- An added name fits its slot, its lifetime does not wrap, and no free slot stands before an
unexpired one that holds the name. -/
def DnsOp.Plain (s : Dns) : DnsOp → Prop
  | .add _ name _ ttl => name.bytes.length ≤ 255 ∧ TtlPlain ttl ∧
      s.cache.Pairwise fun a b => b.holds name → b.fresh s.ticks → a.hasIpv4
  | _ => True

/-! The map with expiry that the cache stands for. -/

structure Added where
  ipv4 : BitVec 32
  time : BitVec 64
  ttl : BitVec 64

def Added.Live (a : Added) (now : BitVec 64) : Prop :=
  now.toNat - a.time.toNat < a.ttl.toNat * 1000 ∧ now.toNat - a.time.toNat < 300000

instance : Decidable (Added.Live a now) := inferInstanceAs (Decidable (_ ∧ _))

/-- The most recent add of each name. -/
structure LastAdds where
  ticks : BitVec 64 := 0
  last : CName → Option Added := fun _ => none

def LastAdds.step (m : LastAdds) : DnsOp → LastAdds
  | .tick now => { m with ticks := now }
  | .add _ name ip ttl => { m with last := Function.update m.last name (some ⟨ip, m.ticks, ttl⟩) }
  | .lookup _ => m

def lastAdds (ops : List DnsOp) : LastAdds := ops.foldl LastAdds.step {}

/-- The address of the most recent add, while that is within both lifetimes. -/
def LastAdds.answer (m : LastAdds) (name : CName) : Option (BitVec 32) :=
  match m.last name with
  | some a => if a.Live m.ticks then some a.ipv4 else none
  | none => none

theorem stored_eq {n : CName} (h : n.bytes.length ≤ 255) : n.stored = n := by
  cases n with
  | mk bytes noNul =>
    simp only [CName.stored, CName.mk.injEq]
    exact List.take_of_length_le h

theorem holds_iff {e : CacheEntry} : e.holds n = true ↔ e.hasIpv4 = true ∧ e.name = n := by
  simp [CacheEntry.holds]

/-- The expiry test is the exact one on entries whose lifetime does not wrap. -/
theorem fresh_iff {e : CacheEntry} (ht : e.timestamp ≤ now) (hp : TtlPlain e.ttl) :
    e.fresh now = true ↔ Added.Live ⟨e.ipv4, e.timestamp, e.ttl⟩ now := by
  have hage : (now - e.timestamp).toNat = now.toNat - e.timestamp.toNat :=
    BitVec.toNat_sub_of_le ht
  have hcap : (DNS_CACHE_TTL).toNat = 300000 := rfl
  have hmul : (e.ttl * 1000).toNat = e.ttl.toNat * 1000 % 2 ^ 64 := by
    rw [BitVec.toNat_mul]
    rfl
  simp only [CacheEntry.fresh, Bool.and_eq_true, decide_eq_true_eq, BitVec.lt_def, hage, hcap,
    hmul, Added.Live]
  rcases hp with hp | hp
  · rw [Nat.mod_eq_of_lt hp]
  · rw [BitVec.le_def, hcap, hmul] at hp
    have hle := Nat.mod_le (e.ttl.toNat * 1000) (2 ^ 64)
    constructor
    · intro ⟨h1, h2⟩
      exact ⟨by omega, h2⟩
    · intro ⟨_, h2⟩
      exact ⟨by omega, h2⟩

theorem Added.Live.mono {a : Added} (h : a.Live t') (hle : t ≤ t') : a.Live t := by
  have := BitVec.le_def.mp hle
  obtain ⟨h1, h2⟩ := h
  exact ⟨by omega, by omega⟩

/-- The cache holds the most recent adds that have not expired, each name's in its first slot. -/
structure Mirrors (s : Dns) (m : LastAdds) : Prop where
  ticks : m.ticks = s.ticks
  good : ∀ e ∈ s.cache, e.hasIpv4 = true → e.timestamp ≤ s.ticks ∧ TtlPlain e.ttl
  sound : ∀ e ∈ s.cache, e.hasIpv4 = true → e.fresh s.ticks = true →
    m.last e.name = some ⟨e.ipv4, e.timestamp, e.ttl⟩
  complete : ∀ n a, m.last n = some a → a.Live s.ticks →
    ∃ e ∈ s.cache, e.holds n = true ∧ (⟨e.ipv4, e.timestamp, e.ttl⟩ : Added) = a
  first : s.cache.Pairwise fun a b => a.hasIpv4 = true → b.holds a.name = true →
    b.fresh s.ticks = false

theorem fresh_mono {e : CacheEntry} (ht : e.timestamp ≤ t) (hp : TtlPlain e.ttl) (hle : t ≤ t')
    (h : e.fresh t' = true) : e.fresh t = true :=
  (fresh_iff ht hp).mpr (((fresh_iff (BitVec.le_trans ht hle) hp).mp h).mono hle)

theorem Mirrors.init : Mirrors {} {} where
  ticks := rfl
  good := nofun
  sound := nofun
  complete := nofun
  first := .nil

theorem Mirrors.tick (h : Mirrors s m) (hle : s.ticks ≤ now) :
    Mirrors { s with ticks := now } { m with ticks := now } where
  ticks := rfl
  good e he hv := ⟨BitVec.le_trans (h.good e he hv).1 hle, (h.good e he hv).2⟩
  sound e he hv hf := by
    obtain ⟨ht, hp⟩ := h.good e he hv
    exact h.sound e he hv (fresh_mono ht hp hle hf)
  complete n a ha hl := h.complete n a ha (hl.mono hle)
  first := by
    apply h.first.imp_of_mem
    intro a b _ hb hab ha hh
    obtain ⟨ht, hp⟩ := h.good b hb (holds_iff.mp hh).1
    cases hf : b.fresh now with
    | false => rfl
    | true =>
      have := hab ha hh
      rw [fresh_mono ht hp hle hf] at this
      cases this

/-! A lookup frees expired slots and nothing else. -/

theorem lookupFrom_value (now : BitVec 64) (name : CName) (l : List CacheEntry) :
    (lookupFrom now name l).1 =
      (l.find? fun e => e.holds name && e.fresh now).map CacheEntry.ipv4 := by
  induction l with
  | nil => rfl
  | cons e l ih =>
    rw [lookupFrom, List.find?_cons]
    cases hh : e.holds name with
    | false => simpa using ih
    | true =>
      cases hf : e.fresh now with
      | false => simpa using ih
      | true => simp

theorem Mirrors.lookup_eq (h : Mirrors s m) (name : CName) :
    (dnsCacheLookup s name).1 = m.answer name := by
  rw [dnsCacheLookup, lookupFrom_value, LastAdds.answer]
  cases hfind : s.cache.find? fun e => e.holds name && e.fresh s.ticks with
  | some e =>
    have he := List.mem_of_find?_eq_some hfind
    have hp := List.find?_some hfind
    rw [Bool.and_eq_true, holds_iff] at hp
    obtain ⟨⟨hv, rfl⟩, hf⟩ := hp
    obtain ⟨ht, hp⟩ := h.good e he hv
    have hl := (fresh_iff ht hp).mp hf
    rw [h.sound e he hv hf, h.ticks]
    simp [hl]
  | none =>
    have hnone := List.find?_eq_none.mp hfind
    cases hm : m.last name with
    | none => rfl
    | some a =>
      have hdead : ¬ a.Live m.ticks := by
        intro hl
        rw [h.ticks] at hl
        obtain ⟨e, he, hh, rfl⟩ := h.complete name a hm hl
        obtain ⟨ht, hp⟩ := h.good e he (holds_iff.mp hh).1
        apply hnone e he
        rw [hh, (fresh_iff ht hp).mpr hl]
        rfl
      simp [hdead]

/-- One slot before and after a lookup. -/
def Cleared (now : BitVec 64) (e e' : CacheEntry) : Prop :=
  e' = e ∨ e.fresh now = false ∧ e' = { e with hasIpv4 := false }

theorem lookupFrom_cleared (now : BitVec 64) (name : CName) (l : List CacheEntry) :
    List.Forall₂ (Cleared now) l (lookupFrom now name l).2 := by
  induction l with
  | nil => exact .nil
  | cons e l ih =>
    rw [lookupFrom]
    cases hh : e.holds name with
    | false => exact .cons (.inl rfl) ih
    | true =>
      cases hf : e.fresh now with
      | false => exact .cons (.inr ⟨hf, rfl⟩) ih
      | true => exact .cons (.inl rfl) (List.forall₂_same.mpr fun _ _ => .inl rfl)

theorem Cleared.live (h : Cleared now e e') (hv : e'.hasIpv4 = true) : e' = e := by
  rcases h with rfl | ⟨_, rfl⟩
  · rfl
  · cases hv

theorem mem_of_cleared (h : List.Forall₂ (Cleared now) l l') (he : e ∈ l')
    (hv : e.hasIpv4 = true) : e ∈ l := by
  induction h with
  | nil => cases he
  | cons h1 h2 ih =>
    rcases List.mem_cons.mp he with rfl | he
    · rw [h1.live hv]
      exact List.mem_cons_self
    · exact List.mem_cons_of_mem _ (ih he)

theorem mem_cleared (h : List.Forall₂ (Cleared now) l l') (he : e ∈ l)
    (hf : e.fresh now = true) : e ∈ l' := by
  induction h with
  | nil => cases he
  | cons h1 h2 ih =>
    rcases List.mem_cons.mp he with rfl | he
    · rcases h1 with rfl | ⟨hd, _⟩
      · exact List.mem_cons_self
      · rw [hd] at hf
        cases hf
    · exact List.mem_cons_of_mem _ (ih he)

theorem pairwise_cleared {R : CacheEntry → CacheEntry → Prop}
    (h : List.Forall₂ (Cleared now) l l')
    (hp : l.Pairwise fun a b => a.hasIpv4 = true → b.hasIpv4 = true → R a b) :
    l'.Pairwise fun a b => a.hasIpv4 = true → b.hasIpv4 = true → R a b := by
  induction h with
  | nil => exact .nil
  | cons h1 h2 ih =>
    rw [List.pairwise_cons] at hp ⊢
    constructor
    · intro b hb ha hv
      have he := h1.live ha
      rw [he] at ha ⊢
      exact hp.1 b (mem_of_cleared h2 hb hv) ha hv
    · exact ih hp.2

theorem Mirrors.lookup (h : Mirrors s m) (name : CName) :
    Mirrors (dnsCacheLookup s name).2 m := by
  have hc := lookupFrom_cleared s.ticks name s.cache
  constructor
  · exact h.ticks
  · intro e he hv
    exact h.good e (mem_of_cleared hc he hv) hv
  · intro e he hv
    exact h.sound e (mem_of_cleared hc he hv) hv
  · intro n a ha hl
    obtain ⟨e, he, hh, rfl⟩ := h.complete n a ha hl
    obtain ⟨ht, hp⟩ := h.good e he (holds_iff.mp hh).1
    exact ⟨e, mem_cleared hc he ((fresh_iff ht hp).mpr hl), hh, rfl⟩
  · have hp := pairwise_cleared (R := fun a b => b.name = a.name → b.fresh s.ticks = false) hc
      (h.first.imp fun hab ha hb hn => hab ha (holds_iff.mpr ⟨hb, hn⟩))
    exact hp.imp fun hab ha hb => hab ha (holds_iff.mp hb).1 (holds_iff.mp hb).2

/-! An add writes the first slot that is free or holds the name, or a new one. -/

/-- What the scan says about the slots it has passed and the one it stops at. -/
structure Selected (name : CName) (pre : List CacheEntry) (old : CacheEntry) : Prop where
  passed : ∀ e ∈ pre, e.hasIpv4 = true ∧ e.name ≠ name
  found : old.hasIpv4 = true → old.name = name

theorem selectSlot_some {l : List CacheEntry} (h : (selectSlot name l i o t).1 = some k) :
    ∃ pre old post, l = pre ++ old :: post ∧ k = i + pre.length ∧ Selected name pre old := by
  induction l generalizing i o t with
  | nil => cases h
  | cons e l ih =>
    rw [selectSlot] at h
    cases hh : e.holds name with
    | true =>
      rw [hh] at h
      cases h
      exact ⟨[], e, l, rfl, rfl, nofun, fun _ => (holds_iff.mp hh).2⟩
    | false =>
      cases hv : e.hasIpv4 with
      | false =>
        simp only [hh, hv] at h
        cases h
        refine ⟨[], e, l, rfl, rfl, nofun, ?_⟩
        intro hv'
        rw [hv] at hv'
        cases hv'
      | true =>
        have hrec : ∃ o' t', (selectSlot name l (i + 1) o' t').1 = some k := by
          simp only [hh, hv] at h
          split at h
          · cases ‹false = true›
          · split at h
            · cases ‹(!true) = true›
            · split at h
              · exact ⟨_, _, h⟩
              · exact ⟨_, _, h⟩
        obtain ⟨o', t', h'⟩ := hrec
        obtain ⟨pre, old, post, rfl, hk, hs⟩ := ih h'
        refine ⟨e :: pre, old, post, rfl, by rw [hk, List.length_cons]; omega, ?_, hs.found⟩
        intro x hx
        rcases List.mem_cons.mp hx with rfl | hx
        · refine ⟨hv, fun hn => ?_⟩
          rw [holds_iff.mpr ⟨hv, hn⟩] at hh
          cases hh
        · exact hs.passed x hx

theorem selectSlot_none {l : List CacheEntry} (h : (selectSlot name l i o t).1 = none) :
    ∀ e ∈ l, e.hasIpv4 = true ∧ e.name ≠ name := by
  induction l generalizing i o t with
  | nil => nofun
  | cons e l ih =>
    rw [selectSlot] at h
    split at h
    · cases h
    · split at h
      · cases h
      · rename_i hh hv
        have hv' : e.hasIpv4 = true := by simpa using hv
        intro x hx
        rcases List.mem_cons.mp hx with rfl | hx
        · exact ⟨hv', fun hn => hh (holds_iff.mpr ⟨hv', hn⟩)⟩
        · split at h
          · exact ih h x hx
          · exact ih h x hx

/-- The array that is written is the old one and empty slots after it. -/
theorem addSlot_spec {cache : List CacheEntry}
    (hg : (selectSlot name cache 0 0 (BitVec.allOnes 64)).1 = none →
      (dnsGrowCache mem cache).isSome) (hne : cache ≠ []) :
    ∃ pre old post k, (addSlot mem name cache).1 = pre ++ old :: post ∧
      (addSlot mem name cache).2 = pre.length ∧ Selected name pre old ∧
      pre ++ old :: post = cache ++ List.replicate k ({} : CacheEntry) := by
  rw [addSlot]
  cases hs : selectSlot name cache 0 0 (BitVec.allOnes 64) with
  | mk sel oldest =>
    rw [hs] at hg
    cases sel with
    | some i =>
      have h1 : (selectSlot name cache 0 0 (BitVec.allOnes 64)).1 = some i := by rw [hs]
      obtain ⟨pre, old, post, hc, hk, hsel⟩ := selectSlot_some h1
      exact ⟨pre, old, post, 0, hc, by simpa using hk, hsel, by simpa using hc.symm⟩
    | none =>
      have h1 : (selectSlot name cache 0 0 (BitVec.allOnes 64)).1 = none := by rw [hs]
      obtain ⟨grown, hgrow⟩ := Option.isSome_iff_exists.mp (hg rfl)
      have hlen : cache.length ≠ 0 := fun h0 => hne (List.length_eq_zero_iff.mp h0)
      have hgr : grown = cache ++ List.replicate cache.length ({} : CacheEntry) := by
        rw [dnsGrowCache, if_neg hlen] at hgrow
        split at hgrow
        · cases hgrow
        · split at hgrow
          · exact (Option.some.inj hgrow).symm
          · cases hgrow
      obtain ⟨k, hk⟩ := Nat.exists_eq_succ_of_ne_zero hlen
      refine ⟨cache, {}, List.replicate k {}, cache.length, ?_, ?_,
        ⟨selectSlot_none h1, nofun⟩, ?_⟩
      · simp only [hgrow, hgr]
        rw [hk, List.replicate_succ]
      · simp only [hgrow]
      · rw [hk, List.replicate_succ]

theorem Mirrors.extend (h : Mirrors s m) (k : Nat) :
    Mirrors { s with cache := s.cache ++ List.replicate k {} } m := by
  have hempty : ∀ e ∈ List.replicate k ({} : CacheEntry), e.hasIpv4 = false := by
    intro e he
    rw [List.eq_of_mem_replicate he]
  have hmem : ∀ e ∈ s.cache ++ List.replicate k ({} : CacheEntry), e.hasIpv4 = true →
      e ∈ s.cache := by
    intro e he hv
    rcases List.mem_append.mp he with he | he
    · exact he
    · rw [hempty e he] at hv
      cases hv
  constructor
  · exact h.ticks
  · exact fun e he hv => h.good e (hmem e he hv) hv
  · exact fun e he hv => h.sound e (hmem e he hv) hv
  · intro n a ha hl
    obtain ⟨e, he, hh⟩ := h.complete n a ha hl
    exact ⟨e, List.mem_append_left _ he, hh⟩
  · rw [List.pairwise_append]
    refine ⟨h.first, ?_, ?_⟩
    · apply List.pairwise_of_forall_mem_list
      intro a ha b _ hv
      rw [hempty a ha] at hv
      cases hv
    · intro a _ b hb _ hh
      rw [holds_iff, hempty b hb] at hh
      cases hh.1

theorem Mirrors.write {m : LastAdds} (h : Mirrors ⟨pre ++ old :: post, now⟩ m)
    (hs : Selected name pre old) (hn : name.bytes.length ≤ 255) (hp : TtlPlain ttl)
    (hpost : ∀ e ∈ post, e.holds name = true → e.fresh now = false) :
    Mirrors ⟨pre ++ addedEntry now name ip ttl :: post, now⟩ (m.step (.add mem name ip ttl)) := by
  have hname : (addedEntry now name ip ttl).name = name := stored_eq hn
  have hlast : (m.step (.add mem name ip ttl)).last name = some ⟨ip, now, ttl⟩ := by
    simp only [LastAdds.step, Function.update_self, h.ticks]
  have hother : ∀ n, n ≠ name → (m.step (.add mem name ip ttl)).last n = m.last n :=
    fun n hne => Function.update_of_ne hne _ _
  have hold : ∀ e ∈ pre ++ addedEntry now name ip ttl :: post,
      e = addedEntry now name ip ttl ∨ e ∈ pre ++ old :: post ∧ (e ∈ pre ∨ e ∈ post) := by
    intro e he
    simp only [List.mem_append, List.mem_cons] at he ⊢
    tauto
  -- an old slot that is still live does not hold the added name
  have hkept : ∀ e, e ∈ pre ∨ e ∈ post → e.hasIpv4 = true → e.fresh now = true →
      e.name ≠ name := by
    intro e he hv hf heq
    rcases he with he | he
    · exact (hs.passed e he).2 heq
    · rw [hpost e he (holds_iff.mpr ⟨hv, heq⟩)] at hf
      cases hf
  constructor
  · exact h.ticks
  · intro e he hv
    rcases hold e he with rfl | ⟨he, _⟩
    · exact ⟨BitVec.le_refl _, hp⟩
    · exact h.good e he hv
  · intro e he hv hf
    rcases hold e he with rfl | ⟨he, hpp⟩
    · rw [hname]
      exact hlast
    · rw [hother _ (hkept e hpp hv hf)]
      exact h.sound e he hv hf
  · intro n a ha hl
    by_cases hne : n = name
    · subst hne
      rw [hlast] at ha
      cases ha
      exact ⟨_, List.mem_append_right _ List.mem_cons_self, holds_iff.mpr ⟨rfl, hname⟩, rfl⟩
    · rw [hother n hne] at ha
      obtain ⟨e, he, hh, hea⟩ := h.complete n a ha hl
      refine ⟨e, ?_, hh, hea⟩
      have : e ≠ old := by
        rintro rfl
        obtain ⟨hv, rfl⟩ := holds_iff.mp hh
        exact hne (hs.found hv)
      simp only [List.mem_append, List.mem_cons] at he ⊢
      tauto
  · have hfirst := h.first
    rw [List.pairwise_append, List.pairwise_cons] at hfirst ⊢
    obtain ⟨hpre, ⟨_, hpost'⟩, hcross⟩ := hfirst
    refine ⟨hpre, ⟨?_, hpost'⟩, ?_⟩
    · intro b hb _ hh
      rw [hname] at hh
      exact hpost b hb hh
    · intro a ha b hb hv hh
      rcases List.mem_cons.mp hb with rfl | hb
      · have := (holds_iff.mp hh).2
        rw [hname] at this
        exact absurd this.symm (hs.passed a ha).2
      · exact hcross a ha b (List.mem_cons_of_mem _ hb) hv hh

theorem Mirrors.add (h : Mirrors s m) (hl : (DnsOp.add mem name ip ttl).Legal s)
    (hp : (DnsOp.add mem name ip ttl).Plain s) :
    Mirrors (dnsCacheAdd mem s name ip ttl) (m.step (.add mem name ip ttl)) := by
  obtain ⟨cache, hc, hg⟩ := hl
  obtain ⟨hn, ht, hfree⟩ := hp
  -- an unallocated cache becomes one free slot
  have hcache : cache ≠ [] ∧ Mirrors ⟨cache, s.ticks⟩ m ∧
      cache.Pairwise fun a b => b.holds name → b.fresh s.ticks → a.hasIpv4 := by
    rw [dnsEnsureCache] at hc
    split at hc
    · rename_i hne
      cases hc
      exact ⟨hne, h, hfree⟩
    · rename_i hnil
      split at hc
      · cases hc
        have hm := h.extend 1
        rw [not_not.mp hnil] at hm
        exact ⟨nofun, hm, List.pairwise_singleton _ _⟩
      · cases hc
  obtain ⟨hne, hm, hfree⟩ := hcache
  obtain ⟨pre, old, post, k, ha, hi, hs, hk⟩ := addSlot_spec hg hne
  have hset : dnsCacheAdd mem s name ip ttl =
      ⟨pre ++ addedEntry s.ticks name ip ttl :: post, s.ticks⟩ := by
    simp only [dnsCacheAdd, hc, ha, hi, List.set_append_right _ _ (Nat.le_refl _), Nat.sub_self,
      List.set_cons_zero]
  have hm' := hm.extend k
  rw [← hk] at hm'
  have hfree' : (pre ++ old :: post).Pairwise
      fun a b => b.holds name = true → b.fresh s.ticks = true → a.hasIpv4 = true := by
    rw [hk, List.pairwise_append]
    refine ⟨hfree, ?_, ?_⟩
    all_goals
      try apply List.pairwise_of_forall_mem_list
      intro a _ b hb hh
      rw [List.eq_of_mem_replicate hb] at hh
      cases hh
  rw [hset]
  apply hm'.write hs hn ht
  intro e he hh
  cases hf : e.fresh s.ticks with
  | false => rfl
  | true =>
    have h1 := (List.pairwise_cons.mp (List.pairwise_append.mp hfree').2.1).1 e he hh hf
    have h2 := (List.pairwise_cons.mp (List.pairwise_append.mp hm'.first).2.1).1 e he h1
    rw [hs.found h1, hf] at h2
    cases h2 hh

theorem Mirrors.step (h : Mirrors s m) (op : DnsOp) (hl : op.Legal s) (hp : op.Plain s) :
    Mirrors (dnsStep s op) (m.step op) := by
  cases op with
  | tick now => exact h.tick hl
  | add mem name ip ttl => exact h.add hl hp
  | lookup name => exact h.lookup name

theorem mirrors_foldl (h : Mirrors s m)
    (hl : Along dnsStep (fun s op => op.Legal s ∧ op.Plain s) s ops) :
    Mirrors (ops.foldl dnsStep s) (ops.foldl LastAdds.step m) := by
  induction ops generalizing s m with
  | nil => exact h
  | cons op ops ih => exact ih (h.step op hl.1.1 hl.1.2) hl.2

/-- What a run leaves for a name is from its last add, or was there before. -/
theorem last_foldl (m : LastAdds) (ops : List DnsOp) (name : CName) :
    (∃ mem a, DnsOp.add mem name a.ipv4 a.ttl ∈ ops ∧
        (ops.foldl LastAdds.step m).last name = some a) ∨
      (∀ mem ip ttl, DnsOp.add mem name ip ttl ∉ ops) ∧
        (ops.foldl LastAdds.step m).last name = m.last name := by
  induction ops generalizing m with
  | nil => exact .inr ⟨nofun, rfl⟩
  | cons op ops ih =>
    rcases ih (m.step op) with ⟨mem, a, hmem, ha⟩ | ⟨hno, ha⟩
    · exact .inl ⟨mem, a, List.mem_cons_of_mem _ hmem, ha⟩
    · rw [List.foldl_cons, ha]
      by_cases hop : ∃ mem ip ttl, op = .add mem name ip ttl
      · obtain ⟨mem, ip, ttl, rfl⟩ := hop
        exact .inl ⟨mem, ⟨ip, m.ticks, ttl⟩, List.mem_cons_self, Function.update_self _ _ _⟩
      · refine .inr ⟨fun mem ip ttl hin => ?_, ?_⟩
        · rcases List.mem_cons.mp hin with heq | hin
          · exact hop ⟨mem, ip, ttl, heq.symm⟩
          · exact hno mem ip ttl hin
        · cases op with
          | tick now => rfl
          | lookup n => rfl
          | add mem n ip ttl =>
            apply Function.update_of_ne
            rintro rfl
            exact hop ⟨mem, ip, ttl, rfl⟩

/-- A lookup answers with the most recent add of the name while that is within both lifetimes,
and never with an address that later adds have replaced. -/
theorem dns_cache_map (ops : List DnsOp)
    (hl : Along dnsStep (fun s op => op.Legal s ∧ op.Plain s) {} ops) (name : CName) :
    (dnsCacheLookup (dnsRun ops) name).1 = (lastAdds ops).answer name ∧
      ∀ before after old, ops = before ++ after →
        (∃ mem ip ttl, DnsOp.add mem name ip ttl ∈ after) →
        (∀ mem ip ttl, DnsOp.add mem name ip ttl ∈ after → ip ≠ old) →
        (dnsCacheLookup (dnsRun ops) name).1 ≠ some old := by
  have hm : Mirrors (dnsRun ops) (lastAdds ops) := mirrors_foldl .init hl
  have hans := hm.lookup_eq name
  refine ⟨hans, ?_⟩
  intro before after old heq ⟨mem, ip, ttl, hadd⟩ hnew
  rw [hans, LastAdds.answer, lastAdds, heq, List.foldl_append]
  rcases last_foldl (before.foldl LastAdds.step {}) after name with ⟨mem', a, hin, ha⟩ | ⟨hno, _⟩
  · rw [ha]
    simp only
    split
    · intro hsome
      exact hnew mem' a.ipv4 a.ttl hin (Option.some.inj hsome)
    · nofun
  · exact absurd hadd (hno mem ip ttl)

def nameA : CName := ⟨[97], by decide⟩

def nameB : CName := ⟨[98], by decide⟩

/-- One name added twice, the second time in the slot of the first. -/
def addTwice : List DnsOp :=
  [.add true nameA 1 300, .tick 1000, .add true nameA 2 300]

theorem addTwice_answer : (dnsCacheLookup (dnsRun addTwice) nameA).1 = some 2 ∧
    (lastAdds addTwice).answer nameA = some 2 := by
  have hl : Along dnsStep (fun s op => op.Legal s ∧ op.Plain s) {} addTwice := by
    refine ⟨⟨⟨_, rfl, nofun⟩, by decide, .inl (by decide), .nil⟩,
      ⟨by unfold DnsOp.Legal; decide, trivial⟩,
      ⟨⟨_, rfl, nofun⟩, by decide, .inl (by decide), List.pairwise_singleton _ _⟩, trivial⟩
  have hmap := (dns_cache_map addTwice hl nameA).1
  have hval : (dnsCacheLookup (dnsRun addTwice) nameA).1 = some 2 := by decide
  exact ⟨hval, hmap.symm.trans hval⟩

/-- The first name expires and frees its slot, into which the second name is added again while
its old slot stays live. -/
def addBeforeOld : List DnsOp :=
  [.add true nameA 1 1, .add true nameB 2 300, .tick 1000, .lookup nameA,
    .add true nameB 3 1, .tick 2000]

theorem addBeforeOld_stale : Along dnsStep (fun s op => op.Legal s) {} addBeforeOld ∧
    (lastAdds addBeforeOld).answer nameB = none ∧
    (dnsCacheLookup (dnsRun addBeforeOld) nameB).1 = some 2 := by
  refine ⟨⟨⟨_, rfl, nofun⟩, ⟨_, rfl, fun _ => rfl⟩, ?_, trivial, ⟨_, rfl, nofun⟩, ?_, trivial⟩,
    by decide, by decide⟩
  · unfold DnsOp.Legal
    decide
  · unfold DnsOp.Legal
    decide

end Lebirun.Net
