import ProtonDrive.SessionPrograms
import ProtonDrive.ErrorClasses

/-!
# Two spellings of one path

`Stat` and `Delete` normalise a path before they look at it; `ListChildren` keys the listing
cache with the path as it was given, and `MakeDir` splits it as it was given. Here two calls
are compared from every session: their results, what they send and the caches they leave.
-/

namespace ProtonDrive.PathSpellings
open SlashPaths KeyedMaps FallibleSteps DriveApi Programs Programs.Prog SessionPrograms
open DriveSession hiding exec Answer
open DirectoryHandlers (WriteError dropMeta)

variable {KR : Type} {ε α : Type}

section Comparison

/-- What a run sends to the server, in order. -/
def requests (w : World) (p : Op KR Unit ε α) (x : Journaled KR Unit) : List (Query KR Unit) :=
  (p.trace (exec w fun _ => ()) x).filter Query.IsRequest

/-- From every session and against every world, two calls give the same result, send the same
requests and leave the same session, up to the count of its steps. -/
def Alike (p q : Op KR Unit ε α) : Prop :=
  ∀ (w : World) (x : Journaled KR Unit),
    (p.run (exec w fun _ => ()) x).result = (q.run (exec w fun _ => ()) x).result ∧
    requests w p x = requests w q x ∧
    (p.run (exec w fun _ => ()) x).state.sess =
      { (q.run (exec w fun _ => ()) x).state.sess with
        ticks := (p.run (exec w fun _ => ()) x).state.sess.ticks }

theorem Alike.of_eq {p q : Op KR Unit ε α} (h : p = q) : Alike p q := by
  subst h
  exact fun w x => ⟨rfl, rfl, rfl⟩

/-- Whether the two spellings are one path for all four calls, and whether what is cached of a
call with `p` is covered by an invalidation issued for `q`: its listing, kept under `p` as it
was given, and its stat entry, kept under the absolute form of `p`. -/
structure OnePath (p q : Path) : Prop where
  listChildren : ∀ (KR : Type) (C : Crypto KR),
    Alike (SessionPrograms.listChildren C p) (SessionPrograms.listChildren C q)
  stat : ∀ (KR : Type) (C : Crypto KR), Alike (SessionPrograms.stat C p) (SessionPrograms.stat C q)
  makeDir : ∀ (KR : Type) (C : Crypto KR) (sealFolder : Link → KR → Path → Option String),
    Alike (SessionPrograms.makeDir C sealFolder p) (SessionPrograms.makeDir C sealFolder q)
  delete : ∀ (KR : Type) (C : Crypto KR) (trash : Bool),
    Alike (SessionPrograms.delete C p trash) (SessionPrograms.delete C q trash)
  covered : ∀ (KR : Type) (c : MetaCache.Cache KR), (c.invalidatePath q).lists.lookup p = none
  coveredStat : ∀ (KR : Type) (c : MetaCache.Cache KR),
    (c.invalidatePath q).stats.lookup (absolute p) = none

end Comparison

section Normalised

variable {C : Crypto KR} {p q : Path}

theorem stat_spelling (h : absolute p = absolute q) :
    (stat C p : Op KR Unit GoError _) = stat C q := by
  rw [stat, stat, h]

theorem delete_spelling (h : absolute p = absolute q) (trash : Bool) :
    (delete C p trash : Op KR Unit WriteError _) =
      delete C q trash := by
  rw [delete, delete, deleteReq,
    deleteReq, stat_spelling h, h]

end Normalised

section Listings

variable {p q : Path}

/-- A session that has listed one path, under the spelling that was used. -/
def listed (p : Path) : Journaled Unit Unit where
  sess := { (newSession "root" none : Session Unit) with
    metaCache := (MetaCache.newMetaCache 0).setList 0 p [] () }
  statStamp := fun _ => ()
  listStamp := fun _ => ()
  received := []

/-- Without network the listing is there for the spelling it was cached under, and for no
other. -/
theorem listChildren_listed (p q : Path) :
    ((listChildren Crypto.plain q).run
      (exec (World.cut (serverOf [])) fun _ => ()) (listed p)).result.isOk = decide (q = p) := by
  have hcut : (World.cut (serverOf [])).Unreachable := fun _ => rfl
  have hseen : seen (World.cut (serverOf [])) (fun _ => ()) listing
      (listChildren Crypto.plain q) (listed p) =
      (listed p).sess.listChildren Crypto.plain (World.cut (serverOf [])) q :=
    seen_listChildren q (listed p)
  obtain ⟨s', hlist, -⟩ := ErrorClasses.listChildren_unreachable (C := Crypto.plain) hcut
    (listed p).sess q
  have hstale : (listed p).sess.metaCache.getListStale q =
      if q = p then some ([], ()) else none := by
    simp only [listed, MetaCache.Cache.getListStale, MetaCache.Cache.lookup_setList]
    split_ifs <;> rfl
  rw [hlist, hstale, seen] at hseen
  rcases hrun : (listChildren Crypto.plain q).run
    (exec (World.cut (serverOf [])) fun _ => ()) (listed p) with ⟨e | r, y⟩
  · rw [hrun] at hseen
    split_ifs at hseen with hq
    · cases hseen
    · simp [hq, Except.isOk, Except.toBool]
  · rw [hrun] at hseen
    split_ifs at hseen with hq
    · simp [hq, Except.isOk, Except.toBool]
    · cases hseen

theorem listChildren_alike_iff :
    (∀ (KR : Type) (C : Crypto KR),
      Alike (listChildren C p) (listChildren C q)) ↔ p = q := by
  constructor
  · intro h
    have hres := (h Unit Crypto.plain (World.cut (serverOf [])) (listed p)).1
    have hok := listChildren_listed p p
    rw [hres, listChildren_listed p q] at hok
    simpa [eq_comm] using hok
  · rintro rfl
    exact fun KR C => .of_eq rfl

end Listings

section Folders

variable {C : Crypto KR} {sealFolder : Link → KR → Path → Option String} {w : World} {p q : Path}
  {x : Journaled KR Unit} {l : Link} {kr parentKR : KR} {y : String}

/-- With a fresh stat entry for the parent and its keyring at hand, `MakeDir` sends one request,
and drops the metadata of the parent as it is spelled. -/
theorem makeDir_cached (hw : w.Reliable)
    (hst : x.sess.metaCache.getStat (w.now x.sess.ticks) (absolute (dir p)) = some (l, kr))
    (hkr : x.sess.nodeKRs.lookup l.linkID = some parentKR)
    (hy : sealFolder l parentKR (base p) = some y) :
    (makeDir C sealFolder p).Yields (exec w fun _ => ()) x
      [.getStat (absolute (dir p)), .nodeKR l.linkID, .createFolder ⟨l.linkID, base p, y⟩,
        .invalidateMeta (dir p)]
      ⟨.ok (), x.update (dropMeta x.sess.tick.tick (dir p))⟩ := by
  have hget : exec w (fun _ => ()) (.getStat (absolute (dir p))) x =
      (some (⟨l, ()⟩, kr), x.update x.sess.tick) := by
    rw [exec, hst]
    rfl
  have hstat : (stat C (dir p)).Yields (exec w fun _ => ()) x [.getStat (absolute (dir p))]
      ⟨.ok (⟨l, ()⟩, kr), x.update x.sess.tick⟩ := .ask hget (.pure _ _)
  have hnode : exec w (fun _ => ()) (.nodeKR l.linkID) (x.update x.sess.tick) =
      (some parentKR, x.update x.sess.tick) := Prod.ext hkr rfl
  have hreq : (createFolderReq C sealFolder p).Yields (exec w fun _ => ()) x
      ([.getStat (absolute (dir p))] ++ [.nodeKR l.linkID])
      ⟨.ok ⟨l.linkID, base p, y⟩, x.update x.sess.tick⟩ := by
    refine .bind hstat.mapError (.ask hnode ?_)
    dsimp only
    rw [hy]
    exact .pure _ _
  have hcreate : exec w (fun _ => ()) (.createFolder ⟨l.linkID, base p, y⟩)
      (x.update x.sess.tick) = (.ok (), x.update x.sess.tick.tick) := by
    simp only [exec, Session.callAPI, hw _]
    rfl
  exact .bind hreq (.ask hcreate ⟨rfl, rfl⟩)

/-- A session with a folder in the stat cache under each of these paths. -/
def visited (ps : List Path) : Journaled Unit Unit where
  sess := { (newSession "root" none : Session Unit) with
    nodeKRs := (∅ : KeyMap LinkID Unit).insert "folder" ()
    metaCache := ps.foldr (fun p c => c.setStat 0 p (plainFolder "folder" "root" "folder") ())
      (MetaCache.newMetaCache 0) }
  statStamp := fun _ => ()
  listStamp := fun _ => ()
  received := []

theorem stats_visited (ps : List Path) (p : Path) :
    (visited ps).sess.metaCache.stats.lookup p =
      if p ∈ ps then some ⟨plainFolder "folder" "root" "folder", (), 0⟩ else none := by
  induction ps with
  | nil => rfl
  | cons a ps ih =>
    have hcons : (visited (a :: ps)).sess.metaCache =
        (visited ps).sess.metaCache.setStat 0 a (plainFolder "folder" "root" "folder") () := rfl
    rw [hcons, MetaCache.Cache.lookup_setStat, ih]
    by_cases h : p = a <;> simp [h]

theorem ttl_visited (ps : List Path) : (visited ps).sess.metaCache.ttl = 30000000000 := by
  induction ps with
  | nil => rfl
  | cons p ps ih => exact ih

theorem getStat_visited {ps : List Path} {p : Path} (h : p ∈ ps) :
    (visited ps).sess.metaCache.getStat 0 p =
      some (plainFolder "folder" "root" "folder", ()) := by
  rw [MetaCache.Cache.getStat, stats_visited, if_pos h, ttl_visited]
  rfl

theorem makeDir_visited {ps : List Path} {p : Path} (h : absolute (dir p) ∈ ps) :
    (makeDir Crypto.plain (fun _ _ _ => some "") p).Yields
      (exec (World.steady (serverOf [])) fun _ => ()) (visited ps)
      [.getStat (absolute (dir p)), .nodeKR "folder", .createFolder ⟨"folder", base p, ""⟩,
        .invalidateMeta (dir p)]
      ⟨.ok (), (visited ps).update (dropMeta (visited ps).sess.tick.tick (dir p))⟩ := by
  have hw : (World.steady (serverOf [])).Reliable := fun _ => rfl
  have hkr : (visited ps).sess.nodeKRs.lookup "folder" = some () := AList.lookup_insert _
  have hget := getStat_visited h
  generalize visited ps = x at *
  exact makeDir_cached (l := plainFolder "folder" "root" "folder") hw hget hkr rfl

/-- Two spellings make the same folder only when they are split alike. -/
theorem makeDir_alike_iff :
    (∀ (KR : Type) (C : Crypto KR) (sealFolder : Link → KR → Path → Option String),
      Alike (makeDir C sealFolder p) (makeDir C sealFolder q)) ↔
      dir p = dir q ∧ base p = base q := by
  constructor
  · intro h
    let ps := [absolute (dir p), absolute (dir q), dir p, dir q]
    have hp : absolute (dir p) ∈ ps := by simp [ps]
    have hq : absolute (dir q) ∈ ps := by simp [ps]
    obtain ⟨hpt, hpr⟩ := makeDir_visited hp
    obtain ⟨hqt, hqr⟩ := makeDir_visited hq
    obtain ⟨-, hreq, hsess⟩ := h Unit Crypto.plain (fun _ _ _ => some "")
      (World.steady (serverOf [])) (visited ps)
    rw [requests, requests, hpt, hqt] at hreq
    rw [hpr, hqr] at hsess
    have hname : ([.createFolder ⟨"folder", base p, ""⟩] : List (Query Unit Unit)) =
        [.createFolder ⟨"folder", base q, ""⟩] := hreq
    refine ⟨?_, by simpa using hname⟩
    have hcache : (visited ps).sess.metaCache.invalidatePath (dir p) =
        (visited ps).sess.metaCache.invalidatePath (dir q) := congrArg Session.metaCache hsess
    have hlookup : ∀ r, ((visited ps).sess.metaCache.invalidatePath (dir p)).stats.lookup r =
        ((visited ps).sess.metaCache.invalidatePath (dir q)).stats.lookup r := by
      intro r
      rw [hcache]
    -- the entry under the one spelling is dropped, and must be dropped under the other
    by_contra hne
    by_cases hnil : dir p = []
    · have hdrop := hlookup (dir q)
      simp only [MetaCache.Cache.stats_invalidatePath, stats_visited] at hdrop
      simp [ps, hnil, Ne.symm (hnil ▸ hne)] at hdrop
    · have hdrop := hlookup (dir p)
      simp only [MetaCache.Cache.stats_invalidatePath, stats_visited] at hdrop
      simp [ps, hnil, hne] at hdrop
  · rintro ⟨hd, hb⟩ KR C sealFolder
    apply Alike.of_eq
    rw [makeDir, makeDir, createFolderReq, createFolderReq, hd, hb]

end Folders

section Covering

/-- A listing is covered by an invalidation of its own spelling or of one whose parent is
spelled that way. -/
theorem covered_iff {p q : Path} :
    (∀ (KR : Type) (c : MetaCache.Cache KR), (c.invalidatePath q).lists.lookup p = none) ↔
      q ≠ [] ∧ (p = q ∨ p = dir q) := by
  constructor
  · intro h
    have hc := h Unit ((MetaCache.newMetaCache 0).setList 0 p [] ())
    rw [MetaCache.Cache.lists_invalidatePath] at hc
    split_ifs at hc with hq
    · exact hq
    · simp at hc
  · intro hq KR c
    rw [MetaCache.Cache.lists_invalidatePath, if_pos hq]

/-- A stat entry is covered by an invalidation of its absolute form only. -/
theorem coveredStat_iff {p q : Path} :
    (∀ (KR : Type) (c : MetaCache.Cache KR),
      (c.invalidatePath q).stats.lookup (absolute p) = none) ↔ q = absolute p := by
  constructor
  · intro h
    have hc := h Unit ((MetaCache.newMetaCache 0).setStat 0 (absolute p) (plainFolder "" "" "") ())
    rw [MetaCache.Cache.stats_invalidatePath] at hc
    split_ifs at hc with hq
    · exact hq.2.symm
    · simp at hc
  · rintro rfl KR c
    have hne : absolute p ≠ [] := clean_ne_nil _
    rw [MetaCache.Cache.stats_invalidatePath, if_pos ⟨hne, rfl⟩]

end Covering

section Spellings

variable {p q : Path}

/-- For two spellings of one path: `Stat` and `Delete` never tell them apart; `ListChildren`
always does; `MakeDir` does unless they are split alike; a listing cached under one is covered
by the other only as a listing of its parent; and a stat entry is covered by the absolute
spelling only. -/
theorem onePath_iff (h : absolute p = absolute q) :
    (OnePath p q ↔ p = q ∧ q = absolute q) ∧
    (∀ (KR : Type) (C : Crypto KR), Alike (stat C p) (stat C q)) ∧
    (∀ (KR : Type) (C : Crypto KR) (trash : Bool), Alike (delete C p trash) (delete C q trash)) ∧
    ((∀ (KR : Type) (C : Crypto KR), Alike (listChildren C p) (listChildren C q)) ↔ p = q) ∧
    ((∀ (KR : Type) (C : Crypto KR) (sealFolder : Link → KR → Path → Option String),
      Alike (makeDir C sealFolder p) (makeDir C sealFolder q)) ↔
        dir p = dir q ∧ base p = base q) ∧
    ((∀ (KR : Type) (c : MetaCache.Cache KR), (c.invalidatePath q).lists.lookup p = none) ↔
      q ≠ [] ∧ (p = q ∨ p = dir q)) ∧
    ((∀ (KR : Type) (c : MetaCache.Cache KR),
      (c.invalidatePath q).stats.lookup (absolute p) = none) ↔ q = absolute q) := by
  have hstat : ∀ (KR : Type) (C : Crypto KR), Alike (stat C p) (stat C q) :=
    fun KR C => .of_eq (stat_spelling h)
  have hdelete : ∀ (KR : Type) (C : Crypto KR) (trash : Bool),
      Alike (delete C p trash) (delete C q trash) :=
    fun KR C trash => .of_eq (delete_spelling h trash)
  refine ⟨?_, hstat, hdelete, listChildren_alike_iff, makeDir_alike_iff, covered_iff,
    h ▸ coveredStat_iff⟩
  constructor
  · intro hone
    exact ⟨listChildren_alike_iff.mp hone.listChildren, h ▸ coveredStat_iff.mp hone.coveredStat⟩
  · rintro ⟨rfl, hq⟩
    have hne : p ≠ [] := hq ▸ clean_ne_nil _
    exact ⟨fun _ _ => .of_eq rfl, hstat, fun _ _ _ => .of_eq rfl, hdelete,
      covered_iff.mpr ⟨hne, .inl rfl⟩, coveredStat_iff.mpr hq⟩

theorem onePath_iff_slash :
    (OnePath "/a".toList "/a/".toList ↔
      "/a".toList = "/a/".toList ∧ "/a/".toList = absolute "/a/".toList) ∧
      dir "/a/".toList = "/a".toList :=
  ⟨(onePath_iff (p := "/a".toList) (q := "/a/".toList) (by decide)).1, by decide⟩

/-- `MakeDir` of `/a/` makes `/a/a`, and a listing of `/a/` does not see the one of `/a`. -/
theorem onePath_fails :
    ¬∀ p q : Path, absolute p = absolute q → OnePath p q := by
  intro hall
  have hone := hall "/a".toList "/a/".toList (by decide)
  have hdir := (makeDir_alike_iff.mp hone.makeDir).1
  exact absurd hdir (by decide)

end Spellings

end ProtonDrive.PathSpellings
