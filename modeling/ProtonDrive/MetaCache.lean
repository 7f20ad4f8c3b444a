import ProtonDrive.DriveApi

/-!
# The metadata cache

`MetaCache` of `metacache.go`: stat and listing results with the time they were stored.
A fresh lookup respects the TTL, a stale one does not; invalidation removes entries by
path, by link, or all of them.
-/

namespace ProtonDrive.MetaCache
open SlashPaths KeyedMaps DriveApi

structure StatEntry (KR : Type) where
  link : Link
  parentKR : KR
  cachedAt : ℤ

structure ListEntry (KR : Type) where
  links : List Link
  parentKR : KR
  cachedAt : ℤ

structure Cache (KR : Type) where
  ttl : ℤ
  stats : KeyMap Path (StatEntry KR)
  lists : KeyMap Path (ListEntry KR)

/-- Thirty seconds, in nanoseconds. -/
def defaultMetaTTL : ℤ := 30000000000

variable {KR : Type}

def newMetaCache (ttl : ℤ) : Cache KR :=
  ⟨if ttl = 0 then defaultMetaTTL else ttl, ∅, ∅⟩

namespace Cache

def getStatStale (c : Cache KR) (p : Path) : Option (Link × KR) :=
  (c.stats.lookup p).map (fun e => (e.link, e.parentKR))

def getStat (c : Cache KR) (now : ℤ) (p : Path) : Option (Link × KR) :=
  ((c.stats.lookup p).filter (fun e => now - e.cachedAt < c.ttl)).map
    (fun e => (e.link, e.parentKR))

def setStat (c : Cache KR) (now : ℤ) (p : Path) (link : Link) (kr : KR) : Cache KR :=
  { c with stats := c.stats.insert p ⟨link, kr, now⟩ }

def getListStale (c : Cache KR) (p : Path) : Option (List Link × KR) :=
  (c.lists.lookup p).map (fun e => (e.links, e.parentKR))

def getList (c : Cache KR) (now : ℤ) (p : Path) : Option (List Link × KR) :=
  ((c.lists.lookup p).filter (fun e => now - e.cachedAt < c.ttl)).map
    (fun e => (e.links, e.parentKR))

def setList (c : Cache KR) (now : ℤ) (p : Path) (links : List Link) (kr : KR) : Cache KR :=
  { c with lists := c.lists.insert p ⟨links, kr, now⟩ }

/-- The entry at `p` and the listings of `p` and of its parent directory. -/
def dropEntry (c : Cache KR) (p : Path) : Cache KR :=
  { c with stats := c.stats.erase p, lists := (c.lists.erase p).erase (dir p) }

def invalidatePath (c : Cache KR) (p : Path) : Cache KR :=
  if p = [] then c else c.dropEntry p

/-- The first stat entry that holds the link, in the order of the scan. -/
def linkEntry (c : Cache KR) (order : RangeOrder Path) (id : LinkID) : Option Path :=
  firstKey order (fun e : StatEntry KR => e.link.linkID == id) c.stats

/-- Scan the stat entries and stop at the first one that holds the link. -/
def invalidateLinkID (c : Cache KR) (order : RangeOrder Path) (id : LinkID) : Cache KR :=
  match c.linkEntry order id with
  | some p => c.dropEntry p
  | none => c

def invalidateAll (c : Cache KR) : Cache KR := { c with stats := ∅, lists := ∅ }

theorem getStat_stale {c : Cache KR} {now : ℤ} {p : Path} {r : Link × KR}
    (h : c.getStat now p = some r) : c.getStatStale p = some r := by
  simp only [getStat, getStatStale, Option.map_eq_some_iff, Option.filter_eq_some_iff] at h ⊢
  obtain ⟨e, ⟨he, -⟩, hr⟩ := h
  exact ⟨e, he, hr⟩

theorem getList_stale {c : Cache KR} {now : ℤ} {p : Path} {r : List Link × KR}
    (h : c.getList now p = some r) : c.getListStale p = some r := by
  simp only [getList, getListStale, Option.map_eq_some_iff, Option.filter_eq_some_iff] at h ⊢
  obtain ⟨e, ⟨he, -⟩, hr⟩ := h
  exact ⟨e, he, hr⟩

@[simp] theorem lookup_setStat (c : Cache KR) (now : ℤ) (p q : Path) (l : Link) (kr : KR) :
    (c.setStat now p l kr).stats.lookup q =
      if q = p then some ⟨l, kr, now⟩ else c.stats.lookup q := lookup_insert_ite _ _ _ _

@[simp] theorem lookup_setList (c : Cache KR) (now : ℤ) (p q : Path) (ls : List Link) (kr : KR) :
    (c.setList now p ls kr).lists.lookup q =
      if q = p then some ⟨ls, kr, now⟩ else c.lists.lookup q := lookup_insert_ite _ _ _ _

@[simp] theorem stats_dropEntry (c : Cache KR) (p q : Path) :
    (c.dropEntry p).stats.lookup q = if q = p then none else c.stats.lookup q :=
  lookup_erase_ite _ _ _

@[simp] theorem lists_dropEntry (c : Cache KR) (p q : Path) :
    (c.dropEntry p).lists.lookup q = if q = p ∨ q = dir p then none else c.lists.lookup q := by
  simp only [dropEntry, lookup_erase_ite]
  split_ifs <;> simp_all

@[simp] theorem stats_invalidatePath (c : Cache KR) (p q : Path) :
    (c.invalidatePath p).stats.lookup q = if p ≠ [] ∧ q = p then none else c.stats.lookup q := by
  by_cases hp : p = []
  · simp [invalidatePath, hp]
  · simp [invalidatePath, hp]

@[simp] theorem lists_invalidatePath (c : Cache KR) (p q : Path) :
    (c.invalidatePath p).lists.lookup q =
      if p ≠ [] ∧ (q = p ∨ q = dir p) then none else c.lists.lookup q := by
  by_cases hp : p = []
  · simp [invalidatePath, hp]
  · simp [invalidatePath, hp]

theorem stats_invalidateLinkID (c : Cache KR) (order : RangeOrder Path) (id : LinkID) (q : Path) :
    (c.invalidateLinkID order id).stats.lookup q =
      if c.linkEntry order id = some q then none else c.stats.lookup q := by
  simp only [invalidateLinkID]
  cases c.linkEntry order id with
  | none => simp
  | some p => simp [eq_comm]

theorem lists_invalidateLinkID (c : Cache KR) (order : RangeOrder Path) (id : LinkID) (q : Path) :
    (c.invalidateLinkID order id).lists.lookup q =
      if ∃ p, c.linkEntry order id = some p ∧ (q = p ∨ q = dir p) then none
      else c.lists.lookup q := by
  simp only [invalidateLinkID]
  cases c.linkEntry order id with
  | none => simp
  | some p => simp

theorem linkEntry_some {c : Cache KR} {order : RangeOrder Path} {id : LinkID} {p : Path}
    (h : c.linkEntry order id = some p) : ∃ e, c.stats.lookup p = some e ∧ e.link.linkID = id := by
  obtain ⟨e, he, hid⟩ := firstKey_some h
  exact ⟨e, he, beq_iff_eq.mp hid⟩

@[simp] theorem stats_invalidateAll (c : Cache KR) (q : Path) :
    c.invalidateAll.stats.lookup q = none := rfl

@[simp] theorem lists_invalidateAll (c : Cache KR) (q : Path) :
    c.invalidateAll.lists.lookup q = none := rfl

/-- One cache lies below another: each of its entries is an entry of the other. -/
structure Below (c d : Cache KR) : Prop where
  stats : ∀ p e, c.stats.lookup p = some e → d.stats.lookup p = some e
  lists : ∀ p e, c.lists.lookup p = some e → d.lists.lookup p = some e

theorem Below.refl (c : Cache KR) : c.Below c := ⟨fun _ _ h => h, fun _ _ h => h⟩

theorem Below.trans {c d e : Cache KR} (h : c.Below d) (h' : d.Below e) : c.Below e :=
  ⟨fun p x hx => h'.stats p x (h.stats p x hx), fun p x hx => h'.lists p x (h.lists p x hx)⟩

theorem dropEntry_below (c : Cache KR) (p : Path) : (c.dropEntry p).Below c := by
  constructor
  · intro q e h
    rw [stats_dropEntry] at h
    split_ifs at h
    exact h
  · intro q e h
    rw [lists_dropEntry] at h
    split_ifs at h
    exact h

/-- Invalidation only removes. -/
theorem invalidatePath_below (c : Cache KR) (p : Path) : (c.invalidatePath p).Below c := by
  simp only [invalidatePath]
  split_ifs
  · exact .refl c
  · exact c.dropEntry_below p

theorem invalidateLinkID_below (c : Cache KR) (order : RangeOrder Path) (id : LinkID) :
    (c.invalidateLinkID order id).Below c := by
  simp only [invalidateLinkID]
  split
  · exact c.dropEntry_below _
  · exact .refl c

theorem invalidateAll_below (c : Cache KR) : c.invalidateAll.Below c :=
  ⟨fun _ _ h => by simp at h, fun _ _ h => by simp at h⟩

end Cache

end ProtonDrive.MetaCache
