import ProtonDrive.PathMaps
import ProtonDrive.PollLoop
import ProtonDrive.VisibleEntries

/-!
# What a listing diff announces

`diffAndEmit` compares the names it can decrypt in an old listing and in the server's, and
enqueues what appeared and what disappeared. Its two maps keep one link for each name, and the
loops over them run in any order.
-/

namespace ProtonDrive.ListingDiff
open SlashPaths KeyedMaps FallibleSteps DriveApi DriveSession EventPoller PollLoop
  PathMaps VisibleEntries

variable {KR : Type}

/-- Some link of the listing decrypts to the name. -/
def Names (C : Crypto KR) (kr : KR) (links : List Link) (n : Path) : Prop :=
  ∃ l ∈ links, C.getName l kr = some n

/-- The path of an entry of a directory: no second slash at the root. -/
def entryPath (d n : Path) : Path := if d = ['/'] then '/' :: n else d ++ '/' :: n

/-- The notification is about a link of the listing with this name. -/
def About (C : Crypto KR) (kr : KR) (links : List Link) (d n : Path) (ev : DriveEvent) : Prop :=
  ev.path = entryPath d n ∧ ∃ l ∈ links, C.getName l kr = some n ∧ l.linkID = ev.linkID

/-- Exactly one CREATED for each name that is only new, exactly one DELETED for each that is only
old, and nothing else. -/
structure ExactDiff (C : Crypto KR) (kr : KR) (d : Path) (old new : List Link)
    (evs : List DriveEvent) : Prop where
  created : ∀ n, Names C kr new n → ¬ Names C kr old n →
    evs.countP (fun ev => ev.type = .created ∧ ev.path = entryPath d n) = 1
  deleted : ∀ n, Names C kr old n → ¬ Names C kr new n →
    evs.countP (fun ev => ev.type = .deleted ∧ ev.path = entryPath d n) = 1
  only : ∀ ev ∈ evs, ∃ n,
    (ev.type = .created ∧ About C kr new d n ev ∧ ¬ Names C kr old n) ∨
    (ev.type = .deleted ∧ About C kr old d n ev ∧ ¬ Names C kr new n)

/-- Every decryptable link of the listing has got its path, and no other link another one; of
several links with one id the last one counts. -/
structure PathsSet (C : Crypto KR) (kr : KR) (d : Path) (new : List Link)
    (before after : KeyMap LinkID Path) : Prop where
  set : ∀ l ∈ new, ∀ n, C.getName l kr = some n → ∃ l' ∈ new, ∃ n', l'.linkID = l.linkID ∧
    C.getName l' kr = some n' ∧ after.lookup l.linkID = some (entryPath d n')
  kept : ∀ id, (∀ l ∈ new, l.linkID = id → C.getName l kr = none) →
    after.lookup id = before.lookup id

/-- `diffAndEmit` on a running poller: what it returns, and what becomes of the session and of
the queue. -/
def diffAndEmit (C : Crypto KR) (w : World) (p : Poller KR) (dirPath : Path) (dirLinkID : LinkID)
    (dirKR : KR) (oldLinks : List Link) : Bool × Poller KR :=
  match EventPoller.diffAndEmit C w dirPath dirLinkID dirKR oldLinks p.session with
  | ⟨.ok evs, s⟩ => (true, { p with session := s, queue := evs.foldl EventPoller.enqueue p.queue })
  | ⟨.error _, s⟩ => (false, { p with session := s })

theorem child_eq_entryPath {d : Path} (hd : d = ['/'] ∨ d.getLast? ≠ some '/') :
    child d = entryPath d := by
  funext n
  rw [child, entryPath]
  split_ifs with hroot
  · rw [hroot]; rfl
  · have hlast := hd.resolve_left hroot
    rw [← List.head?_reverse] at hlast
    have htrim : d.reverse.dropWhile (· = '/') = d.reverse := by
      cases hrev : d.reverse with
      | nil => rfl
      | cons c cs =>
        rw [hrev] at hlast
        exact List.dropWhile_cons_of_neg (by simpa using hlast)
    rw [trimRightSlash, htrim, List.reverse_reverse]

section Names

variable {order : RangeOrder Path} {type : EventType} {d n : Path}
  {names others : KeyMap Path LinkID}

/-- The names that a loop over a map announces, in the order of the loop. -/
def announced (order : RangeOrder Path) (names others : KeyMap Path LinkID) : List Path :=
  (order.arrange names.keys).filter fun n => (others.lookup n).isNone

theorem map_path_namesOnlyIn :
    (namesOnlyIn order type d names others).map (·.path) =
      (announced order names others).map (child d) := by
  have hkeys : ∀ n ∈ order.arrange names.keys, (names.lookup n).isSome := by
    intro n hn
    exact Option.isSome_iff_exists.mpr ((mem_keys_iff names n).mp (order.mem_arrange.mp hn))
  rw [namesOnlyIn, announced]
  generalize order.arrange names.keys = ns at hkeys ⊢
  induction ns with
  | nil => rfl
  | cons n ns ih =>
    have ih := ih fun m hm => hkeys m (List.mem_cons_of_mem n hm)
    obtain ⟨id, hid⟩ := Option.isSome_iff_exists.mp (hkeys n List.mem_cons_self)
    cases ho : others.lookup n with
    | some o => simpa [ho] using ih
    | none => simpa [ho, hid] using ih

theorem type_of_mem_namesOnlyIn {ev : DriveEvent}
    (h : ev ∈ namesOnlyIn order type d names others) : ev.type = type := by
  obtain ⟨n, id, -, -, rfl⟩ := mem_namesOnlyIn.mp h
  rfl

/-- A name that only one map has is announced exactly once. -/
theorem countP_namesOnlyIn_self (hn : n ∈ names.keys) (ho : others.lookup n = none) :
    (namesOnlyIn order type d names others).countP
      (fun ev => ev.type = type ∧ ev.path = child d n) = 1 := by
  have hmem : n ∈ announced order names others := by
    simp [announced, hn, ho]
  have hnodup : ((announced order names others).map (child d)).Nodup :=
    ((order.nodup_arrange names.keys_nodup).filter _).map fun _ _ => child_injective
  calc (namesOnlyIn order type d names others).countP
        (fun ev => ev.type = type ∧ ev.path = child d n)
      = ((namesOnlyIn order type d names others).map (·.path)).count (child d n) := by
        rw [List.count_eq_countP, List.countP_map]
        refine List.countP_congr fun ev hev => ?_
        simp [type_of_mem_namesOnlyIn hev]
    _ = 1 := by
        rw [map_path_namesOnlyIn]
        exact List.count_eq_one_of_mem hnodup (List.mem_map_of_mem hmem)

theorem countP_namesOnlyIn_other {type' : EventType} (h : type' ≠ type) (P : DriveEvent → Prop)
    [DecidablePred P] :
    (namesOnlyIn order type d names others).countP (fun ev => ev.type = type' ∧ P ev) = 0 := by
  refine List.countP_eq_zero.mpr fun ev hev => ?_
  simp [type_of_mem_namesOnlyIn hev, h.symm]

end Names

section Diff

variable {C : Crypto KR} {kr : KR} {links old new : List Link} {d n : Path} {id : LinkID}

theorem names_iff : Names C kr links n ↔ n ∈ (decryptNames C kr links).keys :=
  mem_keys_decryptNames.symm

theorem not_names_iff :
    ¬ Names C kr links n ↔ (decryptNames C kr links).lookup n = none := by
  rw [Names, ← lookup_decryptNames_isSome, Option.not_isSome_iff_eq_none]

/-- The link kept for a name carries the name. -/
theorem link_of_decryptNames (h : (decryptNames C kr links).lookup n = some id) :
    ∃ l ∈ links, C.getName l kr = some n ∧ l.linkID = id := by
  rw [lookup_decryptNames, Option.map_eq_some_iff] at h
  obtain ⟨l, hl, rfl⟩ := h
  exact ⟨l, (lastNamed_some hl).1, (lastNamed_some hl).2, rfl⟩

theorem diffEvents_exact (w : World) (tick : ℕ) (hd : d = ['/'] ∨ d.getLast? ≠ some '/') :
    ExactDiff C kr d old new (diffEvents C w tick d kr old new) := by
  have hchild := child_eq_entryPath hd
  refine ⟨fun n hn ho => ?_, fun n ho hn => ?_, fun ev hev => ?_⟩
  · rw [diffEvents, List.countP_append, ← hchild,
      countP_namesOnlyIn_self (names_iff.mp hn) (not_names_iff.mp ho),
      countP_namesOnlyIn_other (by simp)]
  · rw [diffEvents, List.countP_append, ← hchild,
      countP_namesOnlyIn_self (names_iff.mp ho) (not_names_iff.mp hn),
      countP_namesOnlyIn_other (by simp)]
  · rcases List.mem_append.mp hev with hev | hev
    · obtain ⟨n, id, hid, ho, rfl⟩ := mem_namesOnlyIn.mp hev
      exact ⟨n, .inl ⟨rfl, ⟨congrFun hchild n, link_of_decryptNames hid⟩, not_names_iff.mpr ho⟩⟩
    · obtain ⟨n, id, hid, ho, rfl⟩ := mem_namesOnlyIn.mp hev
      exact ⟨n, .inr ⟨rfl, ⟨congrFun hchild n, link_of_decryptNames hid⟩, not_names_iff.mpr ho⟩⟩

theorem pathsSet_recordChildren (hd : d = ['/'] ∨ d.getLast? ≠ some '/') (links : List Link)
    (s : Session KR) :
    PathsSet C kr d links s.linkPaths (recordChildren C d kr links s).linkPaths := by
  have hmem : ∀ {b}, b ∈ listingBindings C d kr links ↔
      ∃ l ∈ links, ∃ n, C.getName l kr = some n ∧ (l.linkID, entryPath d n) = b := by
    intro b
    simp [listingBindings, child_eq_entryPath hd]
  constructor
  · intro l hl n hn
    rw [recordChildren_linkPaths, lookup_foldl_insert]
    cases hfind : (listingBindings C d kr links).reverse.find? (fun b => b.1 = l.linkID) with
    | none =>
      have hl' := List.mem_reverse.mpr (hmem.mpr ⟨l, hl, n, hn, rfl⟩)
      exact absurd (by simp) (List.find?_eq_none.mp hfind _ hl')
    | some b =>
      obtain ⟨l', hl', n', hn', rfl⟩ :=
        hmem.mp (List.mem_reverse.mp (List.mem_of_find?_eq_some hfind))
      exact ⟨l', hl', n', by simpa using List.find?_some hfind, hn', rfl⟩
  · intro id hid
    rw [recordChildren_linkPaths, lookup_foldl_insert]
    have hnone : (listingBindings C d kr links).reverse.find? (fun b => b.1 = id) = none := by
      refine List.find?_eq_none.mpr fun b hb hbid => ?_
      obtain ⟨l, hl, n, hn, rfl⟩ := hmem.mp (List.mem_reverse.mp hb)
      cases (hid l hl (by simpa using hbid)).symm.trans hn
    rw [hnone]
    rfl

/-- A successful diff announces exactly the difference of the two listings and records the new
one; a diff whose listing fails changes nothing. -/
theorem diffAndEmit_exact (C : Crypto KR) (w : World) (p : Poller KR)
    (hd : d = ['/'] ∨ d.getLast? ≠ some '/') (id : LinkID) (kr : KR) (old : List Link) :
    let r := diffAndEmit C w p d id kr old
    let listed := w.answer p.session.ticks fun srv => srv.children id
    (r.1 = true ↔ listed.isSome) ∧
      (∀ new, listed = some new →
        (∃ evs, r.2.queue = evs.foldl EventPoller.enqueue p.queue ∧ ExactDiff C kr d old new evs) ∧
        PathsSet C kr d new p.session.linkPaths r.2.session.linkPaths ∧
        r.2.session.metaCache.getListStale d = some (new, kr) ∧
        (∀ q, q ≠ d → r.2.session.metaCache.getListStale q = p.session.metaCache.getListStale q) ∧
        r.2.session.metaCache.stats = p.session.metaCache.stats) ∧
      (listed = none → r.2.queue = p.queue ∧
        r.2.session.linkPaths = p.session.linkPaths ∧
        r.2.session.metaCache = p.session.metaCache) := by
  have hspec := diffAndEmit_spec (C := C) (w := w) d id kr old p.session
  simp only [diffAndEmit, World.answer]
  generalize EventPoller.diffAndEmit C w d id kr old p.session = o at hspec ⊢
  rcases o with ⟨e | evs, s⟩
  · obtain ⟨rfl, hnone⟩ := hspec
    have hanswer : (if w.fails p.session.ticks = none then
        (w.server p.session.ticks).children id else none) = none := by
      split_ifs with hf
      · exact hnone hf
      · rfl
    rw [hanswer]
    exact ⟨by simp, by simp, fun _ => ⟨rfl, rfl, rfl⟩⟩
  · obtain ⟨new, hf, hn, rfl, rfl⟩ := hspec
    rw [if_pos hf, hn]
    refine ⟨by simp, ?_, by simp⟩
    rintro _ ⟨rfl⟩
    have hcache : (relisted C w d kr new p.session.tick).metaCache =
        p.session.metaCache.setList (w.now (p.session.ticks + 1)) d new kr := by
      rw [relisted, recordChildren_eq]
      rfl
    refine ⟨⟨_, rfl, diffEvents_exact w _ hd⟩, pathsSet_recordChildren hd new p.session.tick,
      ?_, fun q hq => ?_, ?_⟩
    · simp [hcache, MetaCache.Cache.getListStale, MetaCache.Cache.setList]
    · simp [hcache, MetaCache.Cache.getListStale, MetaCache.Cache.setList, hq]
    · simp [hcache, MetaCache.Cache.setList]

/-- In the root, `a` was renamed to `b`. -/
theorem diffAndEmit_exact_rename :
    let C := Crypto.plain
    let w := World.steady (serverOf [plainFolder "root" "" "x", plainFile "F" "root" "b" 0 "rev1"])
    let old := [plainFile "F" "root" "a" 0 "rev1"]
    let p : Poller Unit := ⟨newSession "root" none, [], ['e'], []⟩
    let r := diffAndEmit C w p ['/'] "root" () old
    r.1 = true ∧ ∃ evs, r.2.queue = evs.foldl EventPoller.enqueue [] ∧
      ExactDiff C () ['/'] old [plainFile "F" "root" "b" 0 "rev1"] evs := by
  intro C w old p r
  obtain ⟨-, hsome, -⟩ := diffAndEmit_exact C w p (.inl rfl) "root" () old
  exact ⟨rfl, (hsome _ rfl).1⟩

end Diff

end ProtonDrive.ListingDiff
