import ProtonDrive.EventPoller

/-!
# Which changes are noticed

Whether an Update or UpdateMetadata event on a link with a recorded path leads to a
notification that points at the link. The first listing that can be compared decides: a
comparison of names that finds nothing to report about the link ends the handling.
-/

namespace ProtonDrive.ChangeNotices
open SlashPaths KeyedMaps FallibleSteps DriveApi DriveSession EventPoller

variable {KR : Type} {C : Crypto KR} {w : World} {le : LinkEvent} {s : Session KR}

/-- Some link of the listing has this name. -/
def Named (C : Crypto KR) (kr : KR) (links : List Link) (n : Path) : Prop :=
  ∃ l ∈ links, C.getName l kr = some n

/-- The names two listings disagree on. -/
def Differs (C : Crypto KR) (kr : KR) (old new : List Link) (n : Path) : Prop :=
  ¬(Named C kr old n ↔ Named C kr new n)

theorem lookup_decryptNames_eq_none {kr : KR} {links : List Link} {n : Path} :
    (decryptNames C kr links).lookup n = none ↔ ¬Named C kr links n := by
  rw [← Option.not_isSome_iff_eq_none, lookup_decryptNames_isSome]
  rfl

theorem lookup_decryptNames_eq_some {kr : KR} {links : List Link} {n : Path} :
    (∃ id, (decryptNames C kr links).lookup n = some id) ↔ Named C kr links n := by
  rw [← Option.isSome_iff_exists, lookup_decryptNames_isSome]
  rfl

/-- A diff speaks of exactly the names the listings disagree on. -/
theorem mem_diffEvents {tick : ℕ} {d : Path} {kr : KR} {old new : List Link} {x : DriveEvent} :
    x ∈ diffEvents C w tick d kr old new ↔
      (∃ n id, Named C kr new n ∧ ¬Named C kr old n ∧
        (decryptNames C kr new).lookup n = some id ∧ x = ⟨.created, id, child d n⟩) ∨
      ∃ n id, Named C kr old n ∧ ¬Named C kr new n ∧
        (decryptNames C kr old).lookup n = some id ∧ x = ⟨.deleted, id, child d n⟩ := by
  simp only [diffEvents]
  rw [List.mem_append, mem_namesOnlyIn, mem_namesOnlyIn]
  refine or_congr (exists_congr fun n => exists_congr fun id => ?_)
    (exists_congr fun n => exists_congr fun id => ?_)
  · rw [lookup_decryptNames_eq_none, ← @lookup_decryptNames_eq_some KR C kr new]
    exact ⟨fun ⟨h, h', hx⟩ => ⟨⟨id, h⟩, h', h, hx⟩, fun ⟨_, h', h, hx⟩ => ⟨h, h', hx⟩⟩
  · rw [lookup_decryptNames_eq_none, ← @lookup_decryptNames_eq_some KR C kr old]
    exact ⟨fun ⟨h, h', hx⟩ => ⟨⟨id, h⟩, h', h, hx⟩, fun ⟨_, h', h, hx⟩ => ⟨h, h', hx⟩⟩

theorem exists_diffEvents {tick : ℕ} {d : Path} {kr : KR} {old new : List Link}
    (target : Path → Prop) :
    (∃ x ∈ diffEvents C w tick d kr old new, target x.path) ↔
      ∃ n, Differs C kr old new n ∧ target (child d n) := by
  constructor
  · rintro ⟨x, hx, ht⟩
    rcases mem_diffEvents.mp hx with ⟨n, id, hn, ho, -, rfl⟩ | ⟨n, id, ho, hn, -, rfl⟩
    · exact ⟨n, fun h => ho (h.mpr hn), ht⟩
    · exact ⟨n, fun h => hn (h.mp ho), ht⟩
  · rintro ⟨n, hd, ht⟩
    by_cases hn : Named C kr new n
    · have ho : ¬Named C kr old n := fun ho => hd ⟨fun _ => hn, fun _ => ho⟩
      obtain ⟨id, hid⟩ := lookup_decryptNames_eq_some.mpr hn
      exact ⟨_, mem_diffEvents.mpr (.inl ⟨n, id, hn, ho, hid, rfl⟩), ht⟩
    · have ho : Named C kr old n := by
        by_contra ho
        exact hd ⟨fun h => absurd h ho, fun h => absurd h hn⟩
      obtain ⟨id, hid⟩ := lookup_decryptNames_eq_some.mpr ho
      exact ⟨_, mem_diffEvents.mpr (.inr ⟨n, id, ho, hn, hid, rfl⟩), ht⟩

/-- A comparison of a cached listing with the server's. -/
structure Comparison (KR : Type) where
  dirPath : Path
  dirLinkID : LinkID
  old : List Link
  kr : KR

def comparison (s : Session KR) (d : Path) (id : LinkID) : Option (Comparison KR) :=
  (diffable d id (s.metaCache.getListStale d) s).map fun r => ⟨d, id, r.1, r.2⟩

/-- The comparison an update is decided by: of the link's own listing, or else of the
listing of the parent named in the event. -/
def firstComparison (s : Session KR) (link : Link) : Option (Comparison KR) :=
  (comparison s (s.linkPath link.linkID) link.linkID).or
    (comparison s (s.linkPath link.parentLinkID) link.parentLinkID)

/-- The comparison, where one is made, finds a difference at a target. -/
def ComparisonPoints (C : Crypto KR) (w : World) (s : Session KR) (link : Link)
    (target : Path → Prop) : Prop :=
  ∀ c new, firstComparison s link = some c →
    (w.server s.ticks).children c.dirLinkID = some new →
      ∃ n, Differs C c.kr c.old new n ∧ target (child c.dirPath n)

section Updates

variable {link : Link} {s₁ : Session KR}

/-- With the path on record, the invalidations keep what the comparisons depend on. -/
theorem invalidated_update (hp : s.linkPath link.linkID ≠ [])
    (hs₁ : dropBlocks link.linkID (invalidateUpdated w link s) = some s₁) :
    s₁.ticks = s.ticks ∧ s₁.nodeKRs = s.nodeKRs := by
  obtain ⟨bc, -, rfl⟩ := dropBlocks_eq_some hs₁
  simp only [invalidateUpdated]
  simp only [hp, if_false]
  split_ifs <;> exact ⟨rfl, rfl⟩

theorem comparison_some {d : Path} {id : LinkID} {c : Comparison KR}
    (h : comparison s d id = some c) :
    diffable d id (s.metaCache.getListStale d) s = some (c.old, c.kr) ∧ c.dirPath = d ∧
      c.dirLinkID = id := by
  obtain ⟨r, hr, rfl⟩ := Option.map_eq_some_iff.mp h
  exact ⟨hr, rfl, rfl⟩

/-- One comparison on an answering server: its notifications, or nothing was compared. -/
theorem diffCached_compares (hw : w.fails s.ticks = none) (ht : s₁.ticks = s.ticks)
    (hk : s₁.nodeKRs = s.nodeKRs) {d : Path} {id : LinkID}
    (hlist : ∀ c, comparison s d id = some c → ((w.server s.ticks).children id).isSome) :
    (diffCached C w d id (s.metaCache.getListStale d) s₁).Sat
      (fun evs _ => ∃ c new, comparison s d id = some c ∧
        (w.server s.ticks).children c.dirLinkID = some new ∧
        evs = diffEvents C w (s.ticks + 2) c.dirPath c.kr c.old new)
      (fun _ s₂ => s₂ = s₁ ∧ comparison s d id = none) := by
  have hdiff : diffable d id (s.metaCache.getListStale d) s₁ =
      diffable d id (s.metaCache.getListStale d) s := by
    simp only [diffable]
    rw [hk]
  refine (diffCached_spec (ht ▸ hw) d id _).mono ?_ ?_
  · rintro evs _ ⟨r, new, hr, hn, rfl, -⟩
    rw [hdiff] at hr
    rw [ht] at hn
    exact ⟨⟨d, id, r.1, r.2⟩, new, by simp [comparison, hr], hn, by rw [ht]⟩
  · rintro _ s₂ (⟨rfl, hn⟩ | ⟨rfl, hd, hn⟩)
    · rw [hdiff] at hn
      exact ⟨rfl, by simp [comparison, hn]⟩
    · rw [hdiff] at hd
      obtain ⟨r, hr⟩ := Option.isSome_iff_exists.mp hd
      have hsome := hlist ⟨d, id, r.1, r.2⟩ (by simp [comparison, hr])
      rw [← ht, hn] at hsome
      cases hsome

/-- The notifications of an update: those of its comparison, or else one at the path. -/
theorem announceUpdate_notices (hw : w.Reliable) (hp : s.linkPath link.linkID ≠ [])
    (hs₁ : dropBlocks link.linkID (invalidateUpdated w link s) = some s₁)
    (hlist : ∀ c, firstComparison s link = some c →
      ((w.server s.ticks).children c.dirLinkID).isSome) :
    (announceUpdate C w link s s₁).Sat
      (fun evs _ => (∃ c new, firstComparison s link = some c ∧
          (w.server s.ticks).children c.dirLinkID = some new ∧
          evs = diffEvents C w (s.ticks + 2) c.dirPath c.kr c.old new) ∨
        firstComparison s link = none ∧
          ∃ type, evs = [⟨type, link.linkID, s.linkPath link.linkID⟩])
      (fun _ _ => False) := by
  obtain ⟨ht, hk⟩ := invalidated_update hp hs₁
  simp only [announceUpdate]
  refine Outcome.Sat.recover ((diffCached_compares (hw _) ht hk ?_).mono ?_ fun _ _ h => h) ?_
  · intro c hc
    obtain ⟨-, -, hid⟩ := comparison_some hc
    exact hid ▸ hlist c (by rw [firstComparison, hc]; rfl)
  · rintro evs _ ⟨c, new, hc, hn, rfl⟩
    exact .inl ⟨c, new, by rw [firstComparison, hc]; rfl, hn, rfl⟩
  rintro _ _ ⟨rfl, hown⟩
  have hfirst : firstComparison s link =
      comparison s (s.linkPath link.parentLinkID) link.parentLinkID := by
    rw [firstComparison, hown, Option.none_or]
  refine Outcome.Sat.recover ((diffCached_compares (hw _) ht hk ?_).mono ?_ fun _ _ h => h) ?_
  · intro c hc
    obtain ⟨-, -, hid⟩ := comparison_some hc
    exact hid ▸ hlist c (hfirst.trans hc)
  · rintro evs _ ⟨c, new, hc, hn, rfl⟩
    exact .inl ⟨c, new, hfirst.trans hc, hn, rfl⟩
  rintro _ _ ⟨rfl, hparent⟩
  have hnone : firstComparison s link = none := hfirst.trans hparent
  refine Outcome.Sat.recover ((announceTrashed_spec ..).mono ?_ fun _ _ _ => trivial) ?_
  · rintro evs _ ⟨l, -, -, -, -, rfl, -⟩
    exact .inr ⟨hnone, _, rfl⟩
  · rintro _ s₂ -
    simp only [hp, if_false]
    exact .inr ⟨hnone, .changed, if_neg hp⟩

/-- An update is noticed at a target, such as the recorded path, exactly when the block cache
is there and the first comparison, if one is made, finds a difference at a target. -/
theorem update_noticed_iff (hu : le.eventType = .update ∨ le.eventType = .updateMetadata)
    (hp : s.linkPath le.link.linkID ≠ []) (hw : w.Reliable)
    (hlist : ∀ c, firstComparison s le.link = some c →
      ((w.server s.ticks).children c.dirLinkID).isSome) (newPath : Path) :
    (∃ evs s', handle C w le s = some ⟨.ok evs, s'⟩ ∧ ∃ x ∈ evs,
      x.path ∈ [s.linkPath le.link.linkID, newPath, dir (s.linkPath le.link.linkID),
        dir newPath]) ↔
    s.blocks.isSome ∧ ComparisonPoints C w s le.link
      (· ∈ [s.linkPath le.link.linkID, newPath, dir (s.linkPath le.link.linkID),
        dir newPath]) := by
  set targets := [s.linkPath le.link.linkID, newPath, dir (s.linkPath le.link.linkID),
    dir newPath] with htargets
  have hhandle : handle C w le s = handleUpdate C w le.link s := by
    rcases hu with hu | hu <;> rw [handle, hu]
  rw [hhandle, handleUpdate]
  cases hb : dropBlocks le.link.linkID (invalidateUpdated w le.link s) with
  | none =>
    have hnone : s.blocks = none := by
      rw [← invalidateUpdated_blocks]
      exact Option.map_eq_none_iff.mp hb
    simp [hnone]
  | some s₁ =>
    obtain ⟨bc, hbc, -⟩ := dropBlocks_eq_some hb
    rw [invalidateUpdated_blocks] at hbc
    have hspec := announceUpdate_notices (C := C) hw hp hb hlist
    rcases hrun : announceUpdate C w le.link s s₁ with ⟨e | evs, s'⟩
    · rw [hrun] at hspec
      exact hspec.elim
    · rw [hrun] at hspec
      have hiff : (∃ x ∈ evs, x.path ∈ targets) ↔ ComparisonPoints C w s le.link (· ∈ targets) := by
        rcases hspec with ⟨c, new, hc, hn, rfl⟩ | ⟨hnone, type, rfl⟩
        · rw [exists_diffEvents (· ∈ targets)]
          constructor
          · intro h c' new' hc' hn'
            cases hc.symm.trans hc'
            cases hn.symm.trans hn'
            exact h
          · exact fun h => h c new hc hn
        · refine ⟨fun _ c new hc => ?_, fun _ => ?_⟩
          · cases hnone.symm.trans hc
          · exact ⟨_, List.mem_singleton_self _, by simp [htargets]⟩
      rw [← hiff]
      constructor
      · rintro ⟨evs', s'', ho, hx⟩
        simp only [Option.map_some, hrun, Option.some.injEq] at ho
        cases ho
        exact ⟨by simp [hbc], hx⟩
      · rintro ⟨-, hx⟩
        exact ⟨evs, s', by simp [hrun], hx⟩

/-- A folder "a" below the root, in a given state. -/
def aFolder (state : LinkState) : Link := { plainFolder "A" "root" "a" with state := state }

def folderServer (state : LinkState) : Server :=
  serverOf [plainFolder "root" "" "", aFolder state]

/-- A session that has listed the folder while it was active. -/
def visited : Session Unit :=
  ((newSession "root" (some ⟨0, 0, ∅⟩)).listChildren Crypto.plain
    (World.steady (folderServer .active)) "/a".toList).state

/-- The visited folder is trashed: its own listing is compared and nothing is announced. -/
theorem update_noticed_fails :
    (World.steady (folderServer .trashed)).Reliable ∧
    (folderServer .trashed).link "A" = some (aFolder .trashed) ∧
    visited.linkPath "A" = "/a".toList ∧
    ∀ newPath, ¬∃ evs s', handle Crypto.plain (World.steady (folderServer .trashed))
        ⟨.updateMetadata, aFolder .trashed⟩ visited = some ⟨.ok evs, s'⟩ ∧ ∃ x ∈ evs,
          x.path ∈ ["/a".toList, newPath, dir "/a".toList, dir newPath] := by
  refine ⟨fun _ => rfl, rfl, rfl, fun newPath => ?_⟩
  rintro ⟨evs, s', h, x, hx, -⟩
  have hnil : handle Crypto.plain (World.steady (folderServer .trashed))
      ⟨.updateMetadata, aFolder .trashed⟩ visited = some ⟨.ok [], _⟩ := rfl
  cases hnil.symm.trans h
  cases hx

/-- A session that has only resolved the folder. -/
def resolved : Session Unit :=
  ((newSession "root" (some ⟨0, 0, ∅⟩)).resolvePath Crypto.plain
    (World.steady (folderServer .active)) "/a".toList).state

/-- When only the listing of the root is cached, the comparison finds the trashed folder. -/
theorem update_noticed_resolved :
    ∃ evs s', handle Crypto.plain (World.steady (folderServer .trashed))
      ⟨.updateMetadata, aFolder .trashed⟩ resolved = some ⟨.ok evs, s'⟩ ∧
      ∃ x ∈ evs, x.path ∈ ["/a".toList, "/a".toList, dir "/a".toList, dir "/a".toList] := by
  have hc : firstComparison resolved (aFolder .trashed) =
      some ⟨['/'], "root", [aFolder .active], ()⟩ := rfl
  refine (@update_noticed_iff _ _ _ ⟨.updateMetadata, aFolder .trashed⟩ resolved
    (.inr rfl) (by decide) (fun _ => rfl) ?_ "/a".toList).mpr ⟨rfl, ?_⟩
  · intro c h
    cases hc.symm.trans h
    rfl
  · intro c new h hn
    cases hc.symm.trans h
    cases hn
    refine ⟨"a".toList, fun hiff => ?_, .head _⟩
    obtain ⟨l, hl, -⟩ := hiff.mp ⟨aFolder .active, .head _, rfl⟩
    cases hl

end Updates

end ProtonDrive.ChangeNotices
