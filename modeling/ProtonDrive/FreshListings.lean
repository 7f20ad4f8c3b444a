import ProtonDrive.EventFreshness
import ProtonDrive.ChangeNotices

/-!
# What a notified client finds listed

A notification sends the client to a directory to enumerate it again. Whether it finds there a
listing from before the event: the invalidations of the event drop it, a comparison has just
replaced it, or it survives. Names of links and paths on record may be any strings here, and the
calls to the server may fail one by one.
-/

namespace ProtonDrive.FreshListings
open SlashPaths KeyedMaps FallibleSteps DriveApi DriveSession EventPoller EventFreshness
  ChangeNotices

/-- The directory the client enumerates again on a notification. -/
def notifiedDir (x : DriveEvent) : Path :=
  match x.type with
  | .changed => x.path
  | .created | .deleted => dir x.path

/-- Invalidating `p` drops the listing of `d`. -/
def Near (d p : Path) : Prop := p ≠ [] ∧ (d = p ∨ d = dir p)

section Conditions

variable {KR : Type}

/-- A listing that the API returned between two ticks and that was stored from `T` on. -/
structure Relisted (w : World) (first last : ℕ) (T : ℤ) (e : MetaCache.ListEntry KR) : Prop where
  stored : T ≤ e.cachedAt
  fetched : ∃ n id, first ≤ n ∧ n < last ∧ w.fails n = none ∧
    (w.server n).children id = some e.links

/-- No notified directory keeps a listing from before the event. -/
def ListedFresh (w : World) (s s' : Session KR) (T : ℤ) (evs : List DriveEvent) : Prop :=
  ∀ x ∈ evs, ∀ e, s'.metaCache.lists.lookup (notifiedDir x) = some e →
    Relisted w s.ticks s'.ticks T e

variable (C : Crypto KR) (w : World) (s : Session KR) (le : LinkEvent)

/-- The stat entry that the scan by the parent's id meets, where the event makes that scan. -/
def swept : Option Path :=
  match le.eventType with
  | .delete =>
    if s.linkPath le.link.linkID = [] then scanned w s le.link.parentLinkID else none
  | .create =>
    if s.linkPath le.link.parentLinkID = [] then scanned w s le.link.parentLinkID else none
  | .update | .updateMetadata =>
    if s.linkPath le.link.linkID = [] then
      (s.metaCache.invalidatePath (s.linkPath le.link.parentLinkID)).linkEntry
        (w.statOrder s.ticks) le.link.parentLinkID
    else none

/-- The listing of the directory is not cached, or an invalidation of the event drops it: that of
the link's path, that of the parent's path, or the scan. -/
def Gone (q : Path) : Prop :=
  s.metaCache.lists.lookup q = none ∨
    (le.eventType ≠ .create ∧ Near q (s.linkPath le.link.linkID)) ∨
    (le.eventType ≠ .delete ∧ Near q (s.linkPath le.link.parentLinkID)) ∨
    ∃ p, swept w s le = some p ∧ (q = p ∨ q = dir p)

/-- A comparison together with the listing that the server answers at a tick. -/
def comparedAt (tick : ℕ) (d : Path) (id : LinkID) : Option (Comparison KR × List Link) :=
  (comparison s d id).bind fun c =>
    (w.answer tick fun srv => srv.children c.dirLinkID).map fun new => (c, new)

/-- The tick of a comparison that follows the asking for a created link's name, if it is asked
for. -/
def namedTick (link : Link) : ℕ :=
  if (s.nodeKRs.lookup link.parentLinkID).any fun kr => (C.getName link kr).isNone then s.ticks + 1
  else s.ticks

/-- The tick of the comparison of the parent's listing, after the scan or after the call for the
link's own listing. -/
def parentTick (link : Link) : ℕ :=
  if s.linkPath link.linkID = [] ∨ (comparison s (s.linkPath link.linkID) link.linkID).isSome then
    s.ticks + 1
  else s.ticks

/-- The comparison that decides an event, if one does. -/
def decidedBy : Option (Comparison KR × List Link) :=
  let path := s.linkPath le.link.linkID
  let parentPath := s.linkPath le.link.parentLinkID
  match le.eventType with
  | .delete => none
  | .create =>
    if (announcedName C w le.link parentPath s).isSome then none
    else comparedAt w s (namedTick C s le.link) parentPath le.link.parentLinkID
  | .update | .updateMetadata =>
    (comparedAt w s s.ticks path le.link.linkID).or
      (comparedAt w s (parentTick s le.link) parentPath le.link.parentLinkID)

/-- Where an event sends the client other than to a directory whose listing it always drops: to
the parent of a deleted link of unknown path, and to where the name of a created link, or a name
that a comparison finds new or gone, leads from the directory. -/
inductive Points : Path → Prop
  | unplaced : le.eventType = .delete → s.linkPath le.link.linkID = [] →
      s.linkPath le.link.parentLinkID ≠ [] → Points (s.linkPath le.link.parentLinkID)
  | named {n : Path} : le.eventType = .create →
      announcedName C w le.link (s.linkPath le.link.parentLinkID) s = some n →
      Points (dir (child (s.linkPath le.link.parentLinkID) n))
  | compared {c : Comparison KR} {new : List Link} {n : Path} :
      decidedBy C w s le = some (c, new) → Differs C c.kr c.old new n →
      Points (dir (child c.dirPath n))

end Conditions

variable {KR : Type} {C : Crypto KR} {w : World} {s s₁ : Session KR} {le : LinkEvent} {q : Path}

section Invalidations

/-- The session once the invalidations of the event are made. -/
def invalidated (w : World) (s : Session KR) (le : LinkEvent) : Session KR :=
  match le.eventType with
  | .delete => invalidateDeleted w le.link s
  | .create => invalidateCreated w le.link s
  | .update | .updateMetadata => invalidateUpdated w le.link s

theorem lists_invalidatePath_eq_none {c : MetaCache.Cache KR} {p : Path} :
    (c.invalidatePath p).lists.lookup q = none ↔ c.lists.lookup q = none ∨ Near q p := by
  rw [MetaCache.Cache.lists_invalidatePath, ite_eq_left_iff]
  exact or_iff_not_imp_right.symm

theorem lists_invalidateLinkID_eq_none {c : MetaCache.Cache KR} {order : RangeOrder Path}
    {id : LinkID} : (c.invalidateLinkID order id).lists.lookup q = none ↔
      c.lists.lookup q = none ∨ ∃ p, c.linkEntry order id = some p ∧ (q = p ∨ q = dir p) := by
  rw [MetaCache.Cache.lists_invalidateLinkID, ite_eq_left_iff]
  exact or_iff_not_imp_right.symm

/-- The invalidations leave no listing exactly where it is gone. -/
theorem lists_invalidated_eq_none :
    (invalidated w s le).metaCache.lists.lookup q = none ↔ Gone w s le q := by
  have hempty : ¬Near q [] := fun h => h.1 rfl
  cases ht : le.eventType with
  | delete =>
    simp only [invalidated, Gone, swept, ht, invalidateDeleted]
    by_cases hp : s.linkPath le.link.linkID = []
    · simp [hp, hempty, Session.invalidatePath, Session.invalidateLinkID, scanned,
        lists_invalidateLinkID_eq_none, MetaCache.Cache.invalidatePath]
    · simp [-MetaCache.Cache.lists_invalidatePath, hp, Session.invalidatePath,
        lists_invalidatePath_eq_none]
  | create =>
    simp only [invalidated, Gone, swept, ht, invalidateCreated]
    by_cases hp : s.linkPath le.link.parentLinkID = []
    · simp [hp, hempty, Session.invalidateLinkID, scanned, lists_invalidateLinkID_eq_none]
    · simp [-MetaCache.Cache.lists_invalidatePath, hp, Session.invalidatePath,
        lists_invalidatePath_eq_none]
  | update | updateMetadata =>
    simp only [invalidated, Gone, swept, ht, metaCache_invalidateUpdated]
    by_cases hp : s.linkPath le.link.linkID = []
    · simp [-MetaCache.Cache.lists_invalidatePath, hp, hempty, lists_invalidateLinkID_eq_none,
        lists_invalidatePath_eq_none, or_assoc]
    · by_cases he : s.linkPath le.link.parentLinkID = s.linkPath le.link.linkID
      · simp [-MetaCache.Cache.lists_invalidatePath, hp, he, lists_invalidatePath_eq_none]
      · simp [-MetaCache.Cache.lists_invalidatePath, hp, he, lists_invalidatePath_eq_none,
          or_assoc]

/-- What the invalidations leave was listed before. -/
theorem invalidated_below : (invalidated w s le).metaCache.Below s.metaCache := by
  have hpath := fun c : MetaCache.Cache KR => c.invalidatePath_below
  have hscan := fun c : MetaCache.Cache KR => c.invalidateLinkID_below
  cases ht : le.eventType with
  | delete =>
    simp only [invalidated, ht, invalidateDeleted]
    split_ifs
    · exact (hscan _ _ _).trans (hpath _ _)
    · exact hpath _ _
  | create =>
    simp only [invalidated, ht, invalidateCreated]
    split_ifs
    · exact hscan _ _ _
    · exact hpath _ _
  | update | updateMetadata =>
    simp only [invalidated, ht, metaCache_invalidateUpdated]
    split_ifs
    · exact (hscan _ _ _).trans (hpath _ _)
    · exact hpath _ _
    · exact (hpath _ _).trans (hpath _ _)

end Invalidations

section Freshness

variable {T : ℤ} {s' : Session KR} {first : ℕ}

/-- What is listed at `q` was fetched by the handling of the event. -/
def FreshAt (w : World) (first : ℕ) (T : ℤ) (s' : Session KR) (q : Path) : Prop :=
  ∀ e, s'.metaCache.lists.lookup q = some e → Relisted w first s'.ticks T e

/-- The listings of a session: those the invalidations left, but for one that was fetched anew
where the old one is gone. -/
def Refetched (w : World) (s : Session KR) (le : LinkEvent) (T : ℤ) (s' : Session KR) : Prop :=
  ∀ q, s'.metaCache.lists.lookup q = (invalidated w s le).metaCache.lists.lookup q ∨
    Gone w s le q ∧ FreshAt w s.ticks T s' q

/-- Where nothing is left from before the event, everything is fresh, and nowhere else. -/
theorem Refetched.freshAt_iff (hl : Refetched w s le T s')
    (hold : ∀ q e, s.metaCache.lists.lookup q = some e → e.cachedAt < T) :
    FreshAt w s.ticks T s' q ↔ Gone w s le q := by
  rcases hl q with hkept | ⟨hgone, hfresh⟩
  · rw [← lists_invalidated_eq_none, ← hkept]
    constructor
    · intro hfresh
      by_contra hne
      obtain ⟨e, he⟩ := Option.ne_none_iff_exists'.mp hne
      have hbefore := hold q e (invalidated_below.lists q e (hkept ▸ he))
      exact absurd (hfresh e he).stored (not_le.mpr hbefore)
    · intro hnone e he
      cases hnone.symm.trans he
  · exact iff_of_true hfresh hgone

theorem refetched_of_lists (h : s'.metaCache.lists = (invalidated w s le).metaCache.lists) :
    Refetched w s le T s' := fun _ => .inl (by rw [h])

/-- A comparison replaces the listing of its directory by what it has fetched. -/
theorem refetched_relisted {d : Path} {id : LinkID} (kr : KR) {new : List Link}
    (hclock : ∀ n, s.ticks ≤ n → T ≤ w.now n) (ht : s.ticks ≤ s₁.ticks)
    (hl : s₁.metaCache.lists = (invalidated w s le).metaCache.lists) (hd : Gone w s le d)
    (hnew : w.answer s₁.ticks (fun srv => srv.children id) = some new) :
    Refetched w s le T (relisted C w d kr new s₁.tick) := by
  have hlookup : ∀ q, (relisted C w d kr new s₁.tick).metaCache.lists.lookup q =
      if q = d then some ⟨new, kr, w.now (s₁.ticks + 1)⟩ else s₁.metaCache.lists.lookup q := by
    intro q
    rw [relisted, recordChildren_eq]
    exact MetaCache.Cache.lookup_setList ..
  have hticks : s₁.ticks < (relisted C w d kr new s₁.tick).ticks :=
    (kept_relisted d kr new s₁.tick).ticks
  intro q
  by_cases hq : q = d
  · subst hq
    refine .inr ⟨hd, fun e he => ?_⟩
    rw [hlookup, if_pos rfl] at he
    cases he
    simp only [World.answer] at hnew
    split_ifs at hnew with hf
    exact ⟨hclock _ (by omega), s₁.ticks, id, ht, hticks, hf, hnew⟩
  · refine .inl ?_
    rw [hlookup, if_neg hq, hl]

end Freshness

section Notices

/-- The names that a comparison reports lead to directories where nothing is left. -/
theorem diffEvents_forall {tick : ℕ} {d : Path} {kr : KR} {old new : List Link}
    (P : Path → Prop) : (∀ x ∈ diffEvents C w tick d kr old new, P (notifiedDir x)) ↔
      ∀ n, Differs C kr old new n → P (dir (child d n)) := by
  have hdir : ∀ x ∈ diffEvents C w tick d kr old new, notifiedDir x = dir x.path := by
    intro x hx
    rcases mem_diffEvents.mp hx with ⟨n, id, -, -, -, rfl⟩ | ⟨n, id, -, -, -, rfl⟩ <;> rfl
  have hexists := @exists_diffEvents KR C w tick d kr old new fun p => ¬P (dir p)
  constructor
  · intro h n hn
    by_contra hp
    obtain ⟨x, hx, hp'⟩ := hexists.mpr ⟨n, hn, hp⟩
    exact hp' (hdir x hx ▸ h x hx)
  · intro h x hx
    by_contra hp
    obtain ⟨n, hn, hp'⟩ := hexists.mp ⟨x, hx, hdir x hx ▸ hp⟩
    exact hp' (h n hn)

theorem comparedAt_nil {tick : ℕ} {id : LinkID} : comparedAt w s tick [] id = none := rfl

/-- One comparison of the handling, with the call it makes. -/
theorem diffCached_at (hk : s₁.nodeKRs = s.nodeKRs) (d : Path) (id : LinkID) :
    (diffCached C w d id (s.metaCache.getListStale d) s₁).Sat
      (fun evs s' => d ≠ [] ∧ ∃ c new, comparedAt w s s₁.ticks d id = some (c, new) ∧
        c.dirPath = d ∧ evs = diffEvents C w (s₁.ticks + 2) d c.kr c.old new ∧
        w.answer s₁.ticks (fun srv => srv.children id) = some new ∧
        s' = relisted C w d c.kr new s₁.tick)
      (fun _ s' => comparedAt w s s₁.ticks d id = none ∧
        s' = if (comparison s d id).isSome then s₁.tick else s₁) := by
  have hdiff : diffable d id (s.metaCache.getListStale d) s₁ =
      diffable d id (s.metaCache.getListStale d) s := by
    simp only [diffable]
    rw [hk]
  rw [diffCached_eq, hdiff]
  rcases Option.eq_none_or_eq_some (diffable d id (s.metaCache.getListStale d) s) with
    hd | ⟨r, hd⟩
  · have hnone : comparison s d id = none := by rw [comparison, hd, Option.map_none]
    rw [hd]
    exact ⟨by rw [comparedAt, hnone, Option.bind_none], by rw [hnone]; rfl⟩
  · have hcompare : comparison s d id = some ⟨d, id, r.1, r.2⟩ := by
      rw [comparison, hd, Option.map_some]
    have hne : d ≠ [] := by
      rintro rfl
      cases hd
    rw [hd]
    refine (diffAndEmit_spec d id r.2 r.1 s₁).mono ?_ ?_
    · rintro _ _ ⟨new, hf, hnew, rfl, rfl⟩
      have hanswer : w.answer s₁.ticks (fun srv => srv.children id) = some new := by
        rw [World.answer, if_pos hf, hnew]
      refine ⟨hne, ⟨d, id, r.1, r.2⟩, new, ?_, rfl, rfl, hanswer, rfl⟩
      rw [comparedAt, hcompare, Option.bind_some, hanswer, Option.map_some]
    · rintro _ _ ⟨rfl, hnone⟩
      have hanswer : w.answer s₁.ticks (fun srv => srv.children id) = none := by
        rw [World.answer]
        split_ifs with hf
        · exact hnone hf
        · rfl
      refine ⟨?_, by rw [hcompare]; rfl⟩
      rw [comparedAt, hcompare, Option.bind_some, hanswer, Option.map_none]

/-- What the handling comes to: the listings, and whether it sends the client only to directories
where nothing is left. -/
def Told (C : Crypto KR) (w : World) (s : Session KR) (le : LinkEvent) (T : ℤ)
    (evs : List DriveEvent) (s' : Session KR) : Prop :=
  Refetched w s le T s' ∧
    ((∀ x ∈ evs, Gone w s le (notifiedDir x)) ↔ ∀ q, Points C w s le q → Gone w s le q)

variable {T : ℤ} {s' : Session KR}

/-- A notification that leads to where nothing is left, of an event that leads nowhere else. -/
theorem told_of_gone {evs : List DriveEvent} (hl : Refetched w s le T s')
    (hevs : ∀ x ∈ evs, Gone w s le (notifiedDir x)) (hno : ∀ q, ¬Points C w s le q) :
    Told C w s le T evs s' :=
  ⟨hl, iff_of_true hevs fun q hq => absurd hq (hno q)⟩

/-- Without a name, a comparison or a deletion that only the parent's path places, an event leads
nowhere. -/
theorem not_points (hdelete : le.eventType = .delete → s.linkPath le.link.linkID = [] →
      s.linkPath le.link.parentLinkID = [])
    (hcreate : le.eventType = .create →
      announcedName C w le.link (s.linkPath le.link.parentLinkID) s = none)
    (hd : decidedBy C w s le = none) : ∀ q, ¬Points C w s le q := by
  rintro _ (⟨ht, hp, hne⟩ | ⟨ht, hn⟩ | ⟨hc, -⟩)
  · exact hne (hdelete ht hp)
  · cases (hcreate ht).symm.trans hn
  · cases hd.symm.trans hc

/-- The notifications of the comparison that decides the event. -/
theorem told_of_compared {c : Comparison KR} {new : List Link} (tick : ℕ)
    (hl : Refetched w s le T s') (hd : decidedBy C w s le = some (c, new))
    (hcreate : le.eventType = .create →
      announcedName C w le.link (s.linkPath le.link.parentLinkID) s = none) :
    Told C w s le T (diffEvents C w tick c.dirPath c.kr c.old new) s' := by
  refine ⟨hl, ?_⟩
  rw [diffEvents_forall (Gone w s le)]
  constructor
  · rintro h _ (⟨ht, -, -⟩ | ⟨ht, hn⟩ | ⟨hd', hdiff⟩)
    · rw [decidedBy, ht] at hd
      cases hd
    · cases (hcreate ht).symm.trans hn
    · cases hd.symm.trans hd'
      exact h _ hdiff
  · exact fun h n hn => h _ (.compared hd hn)

/-- A deletion leads to the directory of the link, or to the parent when its path is unknown. -/
theorem announceDelete_told (ht : le.eventType = .delete)
    (hs₁ : dropBlocks le.link.linkID (invalidateDeleted w le.link s) = some s₁) :
    (announceDelete le.link s s₁).Sat (Told C w s le T) (fun _ _ => False) := by
  have hl : Refetched w s le T s₁ := by
    obtain ⟨bc, -, rfl⟩ := dropBlocks_eq_some hs₁
    refine refetched_of_lists ?_
    rw [invalidated, ht]
  have hnone : decidedBy C w s le = none := by rw [decidedBy, ht]
  have hcreate : le.eventType ≠ .create := by rw [ht]; decide
  simp only [announceDelete, announceChanged]
  by_cases hp : s.linkPath le.link.linkID = []
  · rw [if_pos hp]
    by_cases hd : s.linkPath le.link.parentLinkID = []
    · rw [if_pos hd]
      exact told_of_gone hl (by simp) (not_points (fun _ _ => hd) (absurd · hcreate) hnone)
    · rw [if_neg hd]
      refine ⟨hl, ?_⟩
      simp only [List.forall_mem_singleton, notifiedDir]
      constructor
      · rintro h _ (- | ⟨hc, -⟩ | ⟨hc, -⟩)
        · exact h
        · exact absurd hc hcreate
        · cases hnone.symm.trans hc
      · exact fun h => h _ (.unplaced ht hp hd)
  · rw [if_neg hp]
    refine told_of_gone hl ?_ (not_points (fun _ h => absurd h hp) (absurd · hcreate) hnone)
    simp only [List.forall_mem_singleton, notifiedDir]
    exact .inr (.inl ⟨hcreate, hp, .inr rfl⟩)

/-- The name of a created link depends on the keyrings and on the next call only. -/
theorem announcedName_congr (hk : s₁.nodeKRs = s.nodeKRs) (ht : s₁.ticks = s.ticks) (link : Link)
    (d : Path) : announcedName C w link d s₁ = announcedName C w link d s := by
  have hname : ∀ kr, (createdName C w link kr s₁).1 = (createdName C w link kr s).1 := by
    intro kr
    simp only [createdName, Session.callAPI, ht]
    cases C.getName link kr with
    | some n => rfl
    | none =>
      cases w.fails s.ticks with
      | some e => rfl
      | none => cases (w.server s.ticks).link link.linkID <;> rfl
  simp only [announcedName, hk, hname]

/-- When a created link cannot be announced, the next call is the one of the comparison. -/
theorem announceCreated_ticks (hk : s₁.nodeKRs = s.nodeKRs) (ht : s₁.ticks = s.ticks)
    {link : Link} {d : Path} (hd : d ≠ []) {e : Unit} {s₂ : Session KR}
    (h : announceCreated C w link d s₁ = ⟨.error e, s₂⟩) : s₂.ticks = namedTick C s link := by
  simp only [announceCreated, if_neg hd, hk] at h
  rw [namedTick]
  cases hkr : s.nodeKRs.lookup link.parentLinkID with
  | none =>
    rw [hkr] at h
    cases h
    exact ht
  | some kr =>
    rw [hkr] at h
    simp only [createdName] at h
    cases hn : C.getName link kr with
    | some n =>
      simp only [hn] at h
      split_ifs at h with hnil
      · cases h
        simpa [hn] using ht
      · cases h
    | none =>
      have htick : s₂ = s₁.tick := by
        rcases Session.callAPI_cases w s₁ (fun srv => srv.link link.linkID) with
          ⟨l, -, -, hc⟩ | ⟨_, -, hc⟩
        · simp only [hn, hc] at h
          cases hl : C.getName l kr with
          | none =>
            rw [hl] at h
            cases h
            rfl
          | some n =>
            simp only [hl] at h
            split_ifs at h with hnil
            · cases h
              rfl
            · cases h
        · simp only [hn, hc] at h
          cases h
          rfl
      rw [htick]
      simp [hn, Session.tick, ht]

theorem announceCreate_told (hcreate : le.eventType = .create)
    (hclock : ∀ n, s.ticks ≤ n → T ≤ w.now n) :
    (announceCreate C w le.link s (invalidateCreated w le.link s)).Sat (Told C w s le T)
      (fun _ _ => False) := by
  have hinv : invalidated w s le = invalidateCreated w le.link s := by rw [invalidated, hcreate]
  have hdelete : le.eventType ≠ .delete := by rw [hcreate]; decide
  by_cases hd : s.linkPath le.link.parentLinkID = []
  · -- without a path of the parent nothing is told
    have hsame : announceCreate C w le.link s (invalidateCreated w le.link s) =
        handled [] (invalidateCreated w le.link s) := by
      simp only [announceCreate, announceCreated, diffCached, announceChanged, if_pos hd]
      rfl
    rw [hsame]
    have hnone : decidedBy C w s le = none := by simp [decidedBy, hcreate, hd, comparedAt_nil]
    exact told_of_gone (refetched_of_lists (by rw [hinv])) (by simp)
      (not_points (absurd · hdelete) (fun _ => by simp [announcedName, hd]) hnone)
  · have hs₁ : invalidateCreated w le.link s =
        s.invalidatePath (s.linkPath le.link.parentLinkID) := by
      rw [invalidateCreated, if_neg hd]
    have hgone : Gone w s le (s.linkPath le.link.parentLinkID) :=
      .inr (.inr (.inl ⟨hdelete, hd, .inl rfl⟩))
    have hk : (invalidateCreated w le.link s).nodeKRs = s.nodeKRs := nodeKRs_invalidateCreated
    have ht : (invalidateCreated w le.link s).ticks = s.ticks := by rw [hs₁]; rfl
    have hlists : (invalidateCreated w le.link s).metaCache.lists =
        (invalidated w s le).metaCache.lists := by rw [hinv]
    have hname := announcedName_congr (C := C) (w := w) hk ht le.link
      (s.linkPath le.link.parentLinkID)
    simp only [announceCreate]
    generalize invalidateCreated w le.link s = s₁ at *
    have hspec := announceCreated_spec (C := C) (w := w) le.link
      (s.linkPath le.link.parentLinkID) s₁
    rcases hrun : announceCreated C w le.link (s.linkPath le.link.parentLinkID) s₁ with
      ⟨e | evs, s₂⟩
    · rw [hrun] at hspec
      obtain ⟨hticked, hnone⟩ := hspec
      rw [hname] at hnone
      have hticks := announceCreated_ticks hk ht hd hrun
      have hlists₂ : s₂.metaCache.lists = (invalidated w s le).metaCache.lists := by
        rcases hticked with rfl | rfl <;> exact hlists
      have hdecided : decidedBy C w s le = comparedAt w s s₂.ticks
          (s.linkPath le.link.parentLinkID) le.link.parentLinkID := by
        rw [decidedBy, hcreate, hticks]
        simp [hnone]
      have hle : s.ticks ≤ s₂.ticks := ht ▸ hticked.kept.ticks
      have hcompare := diffCached_at (C := C) (w := w) (hticked.kept.nodeKRs.trans hk)
        (s.linkPath le.link.parentLinkID) le.link.parentLinkID
      simp only [Outcome.recover_error]
      refine Outcome.Sat.recover (hcompare.mono ?_ fun _ _ h => h) ?_
      · rintro _ _ ⟨-, c, new, hc, hpath, rfl, hnew, rfl⟩
        have htold := told_of_compared (s₂.ticks + 2)
          (refetched_relisted (C := C) c.kr hclock hle hlists₂ hgone hnew)
          (hdecided.trans hc) fun _ => hnone
        rwa [hpath] at htold
      · rintro _ s₃ ⟨hc, rfl⟩
        simp only [announceChanged, if_neg hd]
        refine told_of_gone (refetched_of_lists ?_) ?_
          (not_points (absurd · hdelete) (fun _ => hnone) (hdecided.trans hc))
        · split_ifs <;> exact hlists₂
        · simpa [notifiedDir] using hgone
    · rw [hrun] at hspec
      obtain ⟨n, s₃, hn, -, hticked, rfl, rfl⟩ := hspec
      rw [hname] at hn
      refine ⟨refetched_of_lists ?_, ?_⟩
      · rcases hticked with rfl | rfl <;> exact hlists
      · simp only [List.forall_mem_singleton, notifiedDir]
        constructor
        · rintro h _ (⟨ht', -⟩ | ⟨-, hn'⟩ | ⟨hc, -⟩)
          · exact absurd ht' hdelete
          · cases hn.symm.trans hn'
            exact h
          · simp [decidedBy, hcreate, hn] at hc
        · exact fun h => h _ (.named hcreate hn)

/-- The scan is one step; without it the invalidations of an update take none. -/
theorem ticks_invalidateUpdated : (invalidateUpdated w le.link s).ticks =
    if s.linkPath le.link.linkID = [] then s.ticks + 1 else s.ticks := by
  simp only [invalidateUpdated]
  split_ifs <;> rfl

theorem decidedBy_update (hcreate : le.eventType ≠ .create) (hdelete : le.eventType ≠ .delete) :
    decidedBy C w s le =
      (comparedAt w s s.ticks (s.linkPath le.link.linkID) le.link.linkID).or
        (comparedAt w s (parentTick s le.link) (s.linkPath le.link.parentLinkID)
          le.link.parentLinkID) := by
  rw [decidedBy]
  cases ht : le.eventType with
  | create => exact absurd ht hcreate
  | delete => exact absurd ht hdelete
  | update | updateMetadata => rfl

theorem announceUpdate_told (hcreate : le.eventType ≠ .create) (hdelete : le.eventType ≠ .delete)
    (hclock : ∀ n, s.ticks ≤ n → T ≤ w.now n)
    (hs₁ : dropBlocks le.link.linkID (invalidateUpdated w le.link s) = some s₁) :
    (announceUpdate C w le.link s s₁).Sat (Told C w s le T) (fun _ _ => False) := by
  have hinv : invalidated w s le = invalidateUpdated w le.link s := by
    rw [invalidated]
    cases ht : le.eventType with
    | create => exact absurd ht hcreate
    | delete => exact absurd ht hdelete
    | update | updateMetadata => rfl
  have hnocreate : le.eventType = .create →
      announcedName C w le.link (s.linkPath le.link.parentLinkID) s = none :=
    fun h => absurd h hcreate
  have hown : s.linkPath le.link.linkID ≠ [] → ∀ q, (q = s.linkPath le.link.linkID ∨
      q = dir (s.linkPath le.link.linkID)) → Gone w s le q :=
    fun hne q hq => .inr (.inl ⟨hcreate, hne, hq⟩)
  have hparent : s.linkPath le.link.parentLinkID ≠ [] →
      Gone w s le (s.linkPath le.link.parentLinkID) :=
    fun hne => .inr (.inr (.inl ⟨hdelete, hne, .inl rfl⟩))
  obtain ⟨bc, -, hbc⟩ := dropBlocks_eq_some hs₁
  have hlists : s₁.metaCache.lists = (invalidated w s le).metaCache.lists := by rw [hinv, hbc]
  have hk : s₁.nodeKRs = s.nodeKRs := by
    rw [hbc]
    exact nodeKRs_invalidateUpdated
  have ht : s₁.ticks = if s.linkPath le.link.linkID = [] then s.ticks + 1 else s.ticks := by
    rw [hbc]
    exact ticks_invalidateUpdated
  have hle : s.ticks ≤ s₁.ticks := by
    rw [ht]
    split_ifs <;> omega
  have hfirst : comparedAt w s s₁.ticks (s.linkPath le.link.linkID) le.link.linkID =
      comparedAt w s s.ticks (s.linkPath le.link.linkID) le.link.linkID := by
    by_cases hp : s.linkPath le.link.linkID = []
    · rw [hp, comparedAt_nil, comparedAt_nil]
    · rw [ht, if_neg hp]
  have hcompare := diffCached_at (C := C) (w := w) hk (s.linkPath le.link.linkID) le.link.linkID
  rw [hfirst] at hcompare
  simp only [announceUpdate]
  refine Outcome.Sat.recover (hcompare.mono ?_ fun _ _ h => h) ?_
  · rintro _ _ ⟨hne, c, new, hc, hpath, rfl, hnew, rfl⟩
    have hd : decidedBy C w s le = some (c, new) := by
      rw [decidedBy_update hcreate hdelete, hc, Option.some_or]
    have htold := told_of_compared (s₁.ticks + 2)
      (refetched_relisted (C := C) c.kr hclock hle hlists (hown hne _ (.inl rfl)) hnew)
      hd hnocreate
    rwa [hpath] at htold
  rintro _ s₂ ⟨hnone, hs₂⟩
  have hsecond : decidedBy C w s le = comparedAt w s (parentTick s le.link)
      (s.linkPath le.link.parentLinkID) le.link.parentLinkID := by
    rw [decidedBy_update hcreate hdelete, hnone, Option.none_or]
  have ht₂ : s₂.ticks = parentTick s le.link := by
    rw [hs₂, parentTick]
    by_cases hp : s.linkPath le.link.linkID = []
    · have hnil : comparison s (s.linkPath le.link.linkID) le.link.linkID = none := by
        rw [hp]
        rfl
      have hor : s.linkPath le.link.linkID = [] ∨ (comparison s (s.linkPath le.link.linkID)
          le.link.linkID).isSome := .inl hp
      rw [if_pos hor, hnil]
      exact ht.trans (if_pos hp)
    · split_ifs with hsome hor hor
      · exact congrArg (· + 1) (ht.trans (if_neg hp))
      · exact absurd (.inr hsome) hor
      · exact absurd (hor.resolve_left hp) hsome
      · exact ht.trans (if_neg hp)
  have hticked : Ticked s₁ s₂ := by
    rw [hs₂]
    split_ifs
    · exact .inr rfl
    · exact .inl rfl
  have hlists₂ : s₂.metaCache.lists = (invalidated w s le).metaCache.lists := by
    rcases hticked with rfl | rfl <;> exact hlists
  have hle₂ : s.ticks ≤ s₂.ticks := hle.trans hticked.kept.ticks
  have hcompare₂ := diffCached_at (C := C) (w := w) (hticked.kept.nodeKRs.trans hk)
    (s.linkPath le.link.parentLinkID) le.link.parentLinkID
  rw [ht₂] at hcompare₂
  refine Outcome.Sat.recover (hcompare₂.mono ?_ fun _ _ h => h) ?_
  · rintro _ _ ⟨hne, c, new, hc, hpath, rfl, hnew, rfl⟩
    have htold := told_of_compared (parentTick s le.link + 2)
      (refetched_relisted (C := C) c.kr hclock hle₂ hlists₂ (hparent hne) (ht₂ ▸ hnew))
      (hsecond.trans hc) hnocreate
    rwa [hpath] at htold
  rintro _ s₃ ⟨hnone₂, hs₃⟩
  have hnothing : ∀ q, ¬Points C w s le q :=
    not_points (absurd · hdelete) hnocreate (hsecond.trans hnone₂)
  have hlists₃ : s₃.metaCache.lists = (invalidated w s le).metaCache.lists := by
    rw [hs₃]
    split_ifs <;> exact hlists₂
  refine Outcome.Sat.recover ((announceTrashed_spec _ _ s₃).mono ?_ fun _ _ h => h.1) ?_
  · rintro _ _ ⟨l, hp, -, -, -, rfl, rfl⟩
    refine told_of_gone (refetched_of_lists hlists₃) ?_ hnothing
    simp only [List.forall_mem_singleton, notifiedDir]
    exact hown hp _ (.inr rfl)
  · rintro _ s₄ ht₄
    have hlists₄ : s₄.metaCache.lists = (invalidated w s le).metaCache.lists := by
      rcases ht₄ with rfl | rfl <;> exact hlists₃
    refine told_of_gone (refetched_of_lists hlists₄) (fun x hx => ?_) hnothing
    by_cases hp : s.linkPath le.link.linkID = []
    · rw [if_pos hp] at hx
      split_ifs at hx with hd
      · cases hx
      · cases List.mem_singleton.mp hx
        exact hparent hd
    · rw [if_neg hp, if_neg hp] at hx
      cases List.mem_singleton.mp hx
      exact hown hp _ (.inl rfl)

theorem handle_told (hclock : ∀ n, s.ticks ≤ n → T ≤ w.now n) {evs : List DriveEvent}
    (h : handle C w le s = some ⟨.ok evs, s'⟩) : Told C w s le T evs s' := by
  have htold : ∀ o, handle C w le s = some o → o.Sat (Told C w s le T) (fun _ _ => False) := by
    intro o ho
    rcases handle_cases ho with ⟨hc, rfl⟩ | ⟨hd, s₁, hs₁, rfl⟩ | ⟨⟨hc, hd⟩, s₁, hs₁, rfl⟩
    · exact announceCreate_told hc hclock
    · exact announceDelete_told hd hs₁
    · exact announceUpdate_told hc hd hclock hs₁
  exact htold _ h

end Notices

section Listings

variable {T : ℤ} {s' : Session KR}

/-- The directory announced for a deleted link of unknown path has lost its listing. -/
def ParentListingDropped (w : World) (s : Session KR) (le : LinkEvent) : Prop :=
  le.eventType = .delete → s.linkPath le.link.linkID = [] →
    s.linkPath le.link.parentLinkID ≠ [] →
      s.metaCache.lists.lookup (s.linkPath le.link.parentLinkID) = none ∨
      ∃ q, scanned w s le.link.parentLinkID = some q ∧
        (s.linkPath le.link.parentLinkID = q ∨ s.linkPath le.link.parentLinkID = dir q)

/-- A name that is a single component leads from the path on record back to that path. -/
theorem gone_child (hs : PathsAbsolute s) {id : LinkID} {n : Path} (hn : IsComponent n)
    (hne : s.linkPath id ≠ []) (hgone : Gone w s le (s.linkPath id)) :
    Gone w s le (dir (child (s.linkPath id) n)) := by
  rw [dir_child (linkPath_absolute hs hne) hn.noSlash]
  exact hgone

theorem comparedAt_some {tick : ℕ} {d : Path} {id : LinkID} {c : Comparison KR}
    {new : List Link} (h : comparedAt w s tick d id = some (c, new)) : c.dirPath = d ∧ d ≠ [] := by
  obtain ⟨c', hc, hmap⟩ := Option.bind_eq_some_iff.mp h
  obtain ⟨_, -, hpair⟩ := Option.map_eq_some_iff.mp hmap
  cases hpair
  refine ⟨(comparison_some hc).2.1, ?_⟩
  rintro rfl
  cases hc

theorem differs_component (hC : C.NamesAreComponents) {kr : KR} {old new : List Link} {n : Path}
    (h : Differs C kr old new n) : IsComponent n := by
  by_cases ho : Named C kr old n
  · obtain ⟨l, -, hl⟩ := ho
    exact hC l kr n hl
  · obtain ⟨l, -, hl⟩ : Named C kr new n := by
      by_contra hn
      exact h ⟨fun h => absurd h ho, fun h => absurd h hn⟩
    exact hC l kr n hl

/-- A comparison is of a directory whose listing the event drops. -/
theorem decidedBy_dir {c : Comparison KR} {new : List Link}
    (h : decidedBy C w s le = some (c, new)) :
    ∃ id, c.dirPath = s.linkPath id ∧ s.linkPath id ≠ [] ∧ Gone w s le (s.linkPath id) := by
  have hparent : ∀ {tick}, le.eventType ≠ .delete → comparedAt w s tick
      (s.linkPath le.link.parentLinkID) le.link.parentLinkID = some (c, new) →
      ∃ id, c.dirPath = s.linkPath id ∧ s.linkPath id ≠ [] ∧ Gone w s le (s.linkPath id) := by
    intro tick hd hc
    obtain ⟨hpath, hne⟩ := comparedAt_some hc
    exact ⟨_, hpath, hne, .inr (.inr (.inl ⟨hd, hne, .inl rfl⟩))⟩
  by_cases hcreate : le.eventType = .create
  · rw [decidedBy, hcreate] at h
    dsimp only at h
    split_ifs at h
    exact hparent (by simp [hcreate]) h
  · by_cases hdelete : le.eventType = .delete
    · rw [decidedBy, hdelete] at h
      cases h
    · rw [decidedBy_update hcreate hdelete, Option.or_eq_some_iff] at h
      rcases h with hown | ⟨-, hp⟩
      · obtain ⟨hpath, hne⟩ := comparedAt_some hown
        exact ⟨_, hpath, hne, .inr (.inl ⟨hcreate, hne, .inl rfl⟩)⟩
      · exact hparent hdelete hp

/-- Where names are single components, only a deletion can lead to an old listing. -/
theorem points_gone_iff (hC : C.NamesAreComponents) (hs : PathsAbsolute s) :
    (∀ q, Points C w s le q → Gone w s le q) ↔ ParentListingDropped w s le := by
  have hparent : le.eventType ≠ .delete → s.linkPath le.link.parentLinkID ≠ [] →
      Gone w s le (s.linkPath le.link.parentLinkID) :=
    fun hd hne => .inr (.inr (.inl ⟨hd, hne, .inl rfl⟩))
  constructor
  · intro h hd hp hpp
    rcases h _ (.unplaced hd hp hpp) with hnone | ⟨-, hne, -⟩ | ⟨hnot, -⟩ | ⟨q, hq, hnear⟩
    · exact .inl hnone
    · exact absurd hp hne
    · exact absurd hd hnot
    · rw [swept, hd] at hq
      exact .inr ⟨q, by simpa [hp] using hq, hnear⟩
  · rintro h _ (⟨hd, hp, hpp⟩ | ⟨hc, hn⟩ | ⟨hc, hdiff⟩)
    · rcases h hd hp hpp with hnone | ⟨q, hq, hnear⟩
      · exact .inl hnone
      · exact .inr (.inr (.inr ⟨q, by simp [swept, hd, hp, hq], hnear⟩))
    · have hne : s.linkPath le.link.parentLinkID ≠ [] := by
        intro hnil
        simp [announcedName, hnil] at hn
      exact gone_child hs (announcedName_component hC hn) hne (hparent (by simp [hc]) hne)
    · obtain ⟨id, hpath, hne, hgone⟩ := decidedBy_dir hc
      rw [hpath]
      exact gone_child hs (differs_component hC hdiff) hne hgone

/-- Every notified directory is listed anew exactly when no listing is left where the event leads:
at the parent of a deleted link of unknown path, and where a name that is announced leads from its
directory. Where names are single components, only the deletion matters. -/
theorem notified_listings_fresh_iff
    (hold : ∀ q e, s.metaCache.lists.lookup q = some e → e.cachedAt < T)
    (hclock : ∀ n, s.ticks ≤ n → T ≤ w.now n) {evs : List DriveEvent}
    (h : handle C w le s = some ⟨.ok evs, s'⟩) :
    (ListedFresh w s s' T evs ↔ ∀ q, Points C w s le q → Gone w s le q) ∧
    (C.NamesAreComponents → PathsAbsolute s →
      (ListedFresh w s s' T evs ↔ ParentListingDropped w s le)) := by
  obtain ⟨hlists, hpoints⟩ := handle_told hclock h
  have hiff : ListedFresh w s s' T evs ↔ ∀ q, Points C w s le q → Gone w s le q := by
    rw [← hpoints]
    exact forall₂_congr fun x _ => hlists.freshAt_iff hold
  exact ⟨hiff, fun hC hs => hiff.trans (points_gone_iff hC hs)⟩

/-- A session that has listed the root at time zero; the event comes later. -/
def afterList : Session Unit :=
  ((newSession "root" (some ⟨0, 0, ∅⟩)).listChildren Crypto.plain (World.steady oneFile)
    ['/']).state

def later : World := { World.steady oneFile with now := fun _ => 1 }

theorem afterList_lookup (q : Path) (e : MetaCache.ListEntry Unit)
    (h : afterList.metaCache.lists.lookup q = some e) : q = ['/'] ∧ e.cachedAt = 0 := by
  have hl : afterList.metaCache.lists.lookup q =
      if q = ['/'] then some ⟨[plainFile "F" "root" "f" 0 "rev1"], (), 0⟩ else none :=
    lookup_insert_ite _ _ _ _
  rw [hl] at h
  split_ifs at h with hq
  cases h
  exact ⟨hq, rfl⟩

/-- The deleted file was never visited: the root is announced and keeps its old listing. -/
theorem notified_listings_fresh_fails :
    (∀ q e, afterList.metaCache.lists.lookup q = some e → e.cachedAt < 1) ∧
    (∀ n, afterList.ticks ≤ n → 1 ≤ later.now n) ∧
    ∃ evs s', handle Crypto.plain later ⟨.delete, plainFile "F" "root" "f" 0 "rev1"⟩ afterList =
        some ⟨.ok evs, s'⟩ ∧ ¬ListedFresh later afterList s' 1 evs := by
  refine ⟨fun q e h => by rw [(afterList_lookup q e h).2]; decide, fun _ _ => le_rfl, _, _, rfl,
    fun h => ?_⟩
  have hr := (h ⟨.changed, "F", ['/']⟩ (by decide)
    ⟨[plainFile "F" "root" "f" 0 "rev1"], (), 0⟩ rfl).stored
  exact absurd hr (by decide)

/-- The file is created anew: the name leads back to the root, whose listing is dropped. -/
theorem notified_listings_fresh_created :
    ∃ evs s', handle Crypto.plain later ⟨.create, plainFile "F" "root" "f" 0 "rev1"⟩ afterList =
        some ⟨.ok evs, s'⟩ ∧ evs = [⟨.created, "F", "/f".toList⟩] ∧
      ListedFresh later afterList s' 1 evs := by
  have h : handle Crypto.plain later ⟨.create, plainFile "F" "root" "f" 0 "rev1"⟩ afterList =
      some ⟨.ok _, _⟩ := rfl
  have hold : ∀ q e, afterList.metaCache.lists.lookup q = some e → e.cachedAt < 1 := by
    intro q e he
    rw [(afterList_lookup q e he).2]
    decide
  have hclock : ∀ n, afterList.ticks ≤ n → 1 ≤ later.now n := fun _ _ => le_rfl
  have hgone : Gone later afterList ⟨.create, plainFile "F" "root" "f" 0 "rev1"⟩ ['/'] :=
    .inr (.inr (.inl ⟨by decide, by decide, .inl rfl⟩))
  have hname : announcedName Crypto.plain later (plainFile "F" "root" "f" 0 "rev1")
      (afterList.linkPath "root") afterList = some "f".toList := rfl
  refine ⟨_, _, h, rfl, (notified_listings_fresh_iff hold hclock h).1.mpr ?_⟩
  rintro _ (⟨ht, -, -⟩ | ⟨-, hn⟩ | ⟨hd, -⟩)
  · cases ht
  · cases hname.symm.trans hn
    exact hgone
  · cases hd

end Listings

end ProtonDrive.FreshListings
