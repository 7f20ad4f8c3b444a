import ProtonDrive.SessionRuns
import ProtonDrive.VisibleEntries

/-!
# Reads after a write

`MakeDir` drops the metadata of the parent and `Delete` drops nothing, so what the next reads of
the path return depends on what is left: the stat entry of the path, the registered links of
the path and of its parent. The conditions below are exact.
-/

namespace ProtonDrive.ReadYourWrites
open SlashPaths KeyedMaps FallibleSteps DriveApi DriveSession RemoteTree DirectoryHandlers
  VisibleEntries SessionViews SessionRuns

variable {KR : Type}

section Statements

/-- The keyring of a link is its own, whichever keyring opens it. -/
def KeysByLink (C : Crypto KR) : Prop :=
  ∀ {l l' k k' kr kr'}, C.getKeyRing l k = some kr → C.getKeyRing l' k' = some kr' →
    l.linkID = l'.linkID → kr = kr'

/-- The clock does not run backwards. -/
def ClockForward (w : World) : Prop := ∀ {m n}, m ≤ n → w.now m ≤ w.now n

/-- The server made the folder `l` of a request and changed nothing else; the name that was
sealed for the parent's keyring opens with it, and no other link there has it. -/
structure Created (C : Crypto KR) (sealFolder : Link → KR → Path → Option String) (t t' : Tree)
    (req : CreateFolderReq) (l : Link) : Prop where
  root : t'.rootID = t.rootID
  share : t'.share = t.share
  link : ∀ {id}, id ≠ l.linkID → t'.link id = t.link id
  elsewhere : ∀ {id}, id ≠ req.parentLinkID → id ≠ l.linkID → t'.children id = t.children id
  listed : ∃ old new, t.children req.parentLinkID = some old ∧
    t'.children req.parentLinkID = some new ∧ ∀ x, x ∈ new ↔ x = l ∨ x ∈ old
  opens : ∀ {parent kr}, parent.linkID = req.parentLinkID →
    sealFolder parent kr req.name = some req.sealed →
      C.getName l kr = some req.name ∧ (C.getKeyRing l kr).isSome ∧
        ∀ x ls, t'.children req.parentLinkID = some ls → x ∈ ls →
          C.getName x kr = some req.name → x = l

/-- The server removed a link and added nothing. -/
structure Deleted (t t' : Tree) (id : LinkID) : Prop where
  root : t'.rootID = t.rootID
  kept : ∀ {d new}, t'.children d = some new →
    ∃ old, t.children d = some old ∧ new = old.filter (·.linkID ≠ id)

def ListFinds (C : Crypto KR) (w : World) (s : Session KR) (d : Path) (id : LinkID) : Prop :=
  ∃ r, (s.listChildren C w d).result = .ok r ∧ ∃ l ∈ r.1, l.linkID = id

end Statements

section Places

variable {C : Crypto KR} {t : Tree} {w : World} {s s₁ s' : Session KR} {p q : Path}

theorem resolved_fst (h : Keyed C s) (p : Path) :
    (s.resolved p).map Prod.fst = s.pathLinks.lookup p := by
  simp only [Session.resolved]
  cases hp : s.pathLinks.lookup p with
  | none => rfl
  | some id =>
    obtain ⟨kr, hk⟩ := Option.isSome_iff_exists.mp (h.path hp)
    simp [hk]

theorem found_fst (h : Keyed C s) (p : Path) :
    (found C t s p).map Prod.fst =
      (s.pathLinks.lookup (absolute p)).or ((walk C t s p).map Prod.fst) := by
  rw [found, ← resolved_fst h]
  cases s.resolved (absolute p) <;> rfl

theorem found_registered (h : Keyed C s) (hp : IsAbsolute p) {id : LinkID}
    (hl : s.pathLinks.lookup p = some id) : (found C t s p).map Prod.fst = some id := by
  rw [found_fst h, hp.absolute_eq, hl, Option.some_or]

/-- The walk of a path below the root comes by its directory. -/
theorem walk_child (hp : IsAbsolute p) (hne : p ≠ ['/']) :
    walk C t s p = (walk C t s (dir p)).bind fun n => t.enter C n (base p) := by
  rcases hp.cases with rfl | ⟨es, e, he, hc, rfl⟩
  · exact absurd rfl hne
  · have hes : ∀ a ∈ es ++ [e], IsComponent a := components_concat he hc
    rw [dir_render_concat he hc.noSlash, base_render_concat es hc]
    simp only [walk, splitPath_eq, elements_render he, elements_render hes,
      RemoteTree.Tree.descend_append, Option.bind_assoc]
    congr 1
    funext kr
    congr 1
    funext n
    simp [Tree.descend]

/-- The keyring a walk ends with is the one the session keeps for the link. -/
theorem found_unregistered (hp : IsAbsolute p) (hne : p ≠ ['/'])
    (hl : s.pathLinks.lookup p = none) :
    found C t s p = (walk C t s (dir p)).bind fun n => t.enter C n (base p) := by
  have hnone : s.resolved p = none := by
    rw [Session.resolved, hl]
    rfl
  rw [found, hp.absolute_eq, hnone, Option.none_or, walk_child hp hne]

theorem walk_key (hC : KeysByLink C) (hs : Keyed C s) (hroot : s.rootID = t.rootID)
    {id : LinkID} {k kr : KR} (hw : walk C t s q = some (id, k))
    (hk : s.nodeKRs.lookup id = some kr) : k = kr := by
  obtain ⟨k₀, hk₀, hd⟩ := Option.bind_eq_some_iff.mp hw
  rcases (splitPath q).eq_nil_or_concat' with hsp | ⟨es, e, hsp⟩
  · rw [hsp] at hd
    cases hd
    rw [rootKey, hk, Option.some_or] at hk₀
    exact (Option.some.inj hk₀).symm
  · rw [hsp, Tree.descend_append] at hd
    obtain ⟨m, -, hm⟩ := Option.bind_eq_some_iff.mp hd
    obtain ⟨m', hm, hm'⟩ := Option.bind_eq_some_iff.mp hm
    cases hm'
    obtain ⟨ls, l, hls, hl, -, hkey, hid⟩ := Tree.enter_eq_some hm
    have hne : id ≠ s.rootID := by
      intro hr
      exact t.root_not_child hls hl (hid.trans (hr.trans hroot))
    obtain ⟨l', k', hid', hkey'⟩ := hs.node hk hne
    exact hC hkey hkey' (hid.trans hid'.symm)

/-- Whether registered or walked to, a folder is found with the keyring the session keeps. -/
theorem found_key (hC : KeysByLink C) (hs : Keyed C s) (hroot : s.rootID = t.rootID)
    {id : LinkID} {k kr : KR} (hf : found C t s q = some (id, k))
    (hk : s.nodeKRs.lookup id = some kr) : k = kr := by
  rcases Option.or_eq_some_iff.mp hf with hres | ⟨-, hw⟩
  · simp only [Session.resolved, Option.bind_eq_some_iff, Option.map_eq_some_iff] at hres
    obtain ⟨id', -, kr', hk', he⟩ := hres
    cases he
    exact Option.some.inj (hk'.symm.trans hk)
  · exact walk_key hC hs hroot hw hk

/-- A folder that lists the link is the link's parent. -/
theorem parent_of_listed {d d' : LinkID} {ls ls' : List Link} {l x : Link}
    (hls : t.children d = some ls) (hl : l ∈ ls) (hls' : t.children d' = some ls') (hx : x ∈ ls')
    (hid : x.linkID = l.linkID) : d' = d := by
  have hxl : x = l := t.link_unique hls' hx hls hl hid
  rw [← t.parent_of_child hls' hx, hxl, t.parent_of_child hls hl]

variable {id : LinkID}

theorem resolveFinds_iff (hr : w.Reliable) (hw : w.Serves t.toServer) :
    ResolveFinds C w s p id ↔ (found C t s p).map Prod.fst = some id := by
  rw [Option.map_eq_some_iff]
  exact exists_congr fun n =>
    and_congr_left' (resolvePath_answers (C := C) hr hw s p).ok_iff

/-- A listing comes from the cache, or else from the server. -/
theorem listFinds_iff (hr : w.Reliable) (hw : w.Serves t.toServer) :
    ListFinds C w s p id ↔
      (∃ r, s.metaCache.getList (w.now s.ticks) p = some r ∧ ∃ l ∈ r.1, l.linkID = id) ∨
      (s.metaCache.getList (w.now s.ticks) p = none ∧ ∃ n ls, found C t s p = some n ∧
        t.children n.1 = some ls ∧ ∃ l ∈ ls, l.linkID = id) := by
  have hlist := listChildren_answers (C := C) hr hw s p
  cases hg : s.metaCache.getList (w.now s.ticks) p with
  | some r =>
    rw [hg, Option.some_or] at hlist
    simp [ListFinds, hlist.ok_iff, eq_comm]
  | none =>
    rw [hg, Option.none_or] at hlist
    simp only [ListFinds, hlist.ok_iff, fetched, reduceCtorEq, false_and, exists_false, false_or,
      true_and]
    constructor
    · rintro ⟨r, hf, l, hl, hid⟩
      obtain ⟨n, hn, hch⟩ := Option.bind_eq_some_iff.mp hf
      obtain ⟨ls, hls, rfl⟩ := Option.map_eq_some_iff.mp hch
      exact ⟨n, ls, hn, hls, l, hl, hid⟩
    · rintro ⟨n, ls, hn, hls, l, hl, hid⟩
      exact ⟨(ls, n.2), by simp [hn, hls], l, hl, hid⟩

end Places

section AfterMakeDir

variable {C : Crypto KR} {sealFolder : Link → KR → Path → Option String} {t t' : Tree}
  {w w' : World} {s s' : Session KR} {p : Path} {req : CreateFolderReq} {l : Link}

/-- The new folder is what its name finds. -/
theorem Created.find (hcr : Created C sealFolder t t' req l) {parent : Link} {kr : KR}
    {ls : List Link} (hid : parent.linkID = req.parentLinkID)
    (hseal : sealFolder parent kr req.name = some req.sealed)
    (hls : t'.children req.parentLinkID = some ls) (hl : l ∈ ls) :
    findChild C kr req.name ls = some l := by
  obtain ⟨hname, -, honly⟩ := hcr.opens hid hseal
  cases hf : findChild C kr req.name ls with
  | none => exact absurd hname (by simpa using List.find?_eq_none.mp hf l hl)
  | some x =>
    obtain ⟨hx, hn⟩ := findChild_some hf
    rw [honly x ls hls hx hn]

/-- The new folder between the two sessions: where the server lists it, and what the session that
reads knows of its parent and its path. -/
structure FolderMade (C : Crypto KR) (t' : Tree) (s s' : Session KR) (p : Path) (l : Link)
    (ls : List Link) (kr : KR) : Prop where
  keyed : Keyed C s'
  root : s'.rootID = t'.rootID
  walk : ∀ q, SessionViews.walk C t' s' q = SessionViews.walk C t' s q
  paths : ∀ q, q = p ∨ q = dir p → s'.pathLinks.lookup q = s.pathLinks.lookup q
  children : t'.children l.parentLinkID = some ls
  mem : l ∈ ls
  key : s'.nodeKRs.lookup l.parentLinkID = some kr
  opens : (C.getKeyRing l kr).isSome
  find : findChild C kr (base p) ls = some l

variable {ls : List Link} {kr : KR}

theorem FolderMade.resolveFinds_iff (h : FolderMade C t' s s' p l ls kr) (hC : KeysByLink C)
    (hr : w'.Reliable) (hw' : w'.Serves t'.toServer) (hp : IsAbsolute p) (hne : p ≠ ['/']) :
    ResolveFinds C w' s' p l.linkID ↔ match s.pathLinks.lookup p with
      | some registered => registered = l.linkID
      | none => (SessionViews.walk C t' s (dir p)).map Prod.fst = some l.parentLinkID := by
  rw [ReadYourWrites.resolveFinds_iff hr hw']
  have hpath : s'.pathLinks.lookup p = s.pathLinks.lookup p := h.paths p (.inl rfl)
  cases hpl : s.pathLinks.lookup p with
  | some registered =>
    rw [found_registered h.keyed hp (hpath.trans hpl), Option.some.injEq]
  | none =>
    rw [found_unregistered hp hne (hpath.trans hpl), h.walk]
    constructor
    · intro hf
      obtain ⟨n, hn, hid⟩ := Option.map_eq_some_iff.mp hf
      obtain ⟨m, hm, hent⟩ := Option.bind_eq_some_iff.mp hn
      obtain ⟨ls', x, hls', hx, -, -, hid'⟩ := Tree.enter_eq_some hent
      rw [hm]
      exact congrArg some (parent_of_listed h.children h.mem hls' hx (hid'.trans hid))
    · intro hf
      obtain ⟨⟨id, k⟩, hwk, rfl⟩ := Option.map_eq_some_iff.mp hf
      have hkk : k = kr := walk_key hC h.keyed h.root ((h.walk _).trans hwk) h.key
      subst hkk
      obtain ⟨kl, hkl⟩ := Option.isSome_iff_exists.mp h.opens
      simp [hwk, Tree.enter, h.children, h.find, hkl]

/-- With the listing of the parent dropped, the listing is asked of the link the parent's path is
found at. -/
theorem FolderMade.listFinds_iff (h : FolderMade C t' s s' p l ls kr) (hr : w'.Reliable)
    (hw' : w'.Serves t'.toServer)
    (hnolist : s'.metaCache.getList (w'.now s'.ticks) (dir p) = none) :
    ListFinds C w' s' (dir p) l.linkID ↔
      (found C t' s' (dir p)).map Prod.fst = some l.parentLinkID := by
  rw [ReadYourWrites.listFinds_iff hr hw', hnolist]
  simp only [reduceCtorEq, false_and, exists_false, false_or, true_and]
  constructor
  · rintro ⟨n, ls', hn, hls', x, hx, hid⟩
    rw [hn]
    exact congrArg some (parent_of_listed h.children h.mem hls' hx hid)
  · intro hf
    obtain ⟨n, hn, hid⟩ := Option.map_eq_some_iff.mp hf
    exact ⟨n, ls, hn, hid ▸ h.children, l, h.mem, rfl⟩

theorem FolderMade.statFinds_iff (h : FolderMade C t' s s' p l ls kr) (hC : KeysByLink C)
    (hr : w'.Reliable) (hw' : w'.Serves t'.toServer) (hp : IsAbsolute p) (hne : p ≠ ['/'])
    (hnolist : ∀ now, s'.metaCache.getList now (dir p) = none)
    (hf : (found C t' s' (dir p)).map Prod.fst = some l.parentLinkID) :
    StatFinds C w' s' p l.linkID ↔
      ∀ r, s'.metaCache.getStat (w'.now s'.ticks) p = some r → r.1.linkID = l.linkID := by
  obtain ⟨m, -, hstat⟩ := stat_answers (C := C) hr hw' s' hp hne
  simp only [statView, hnolist, Option.none_or] at hstat
  simp only [StatFinds, hstat.ok_iff]
  cases hg : s'.metaCache.getStat (w'.now s'.ticks) p with
  | some r => simp
  | none =>
    obtain ⟨⟨id, k⟩, hn, rfl⟩ := Option.map_eq_some_iff.mp hf
    have hkk : k = kr := found_key hC h.keyed h.root hn h.key
    subst hkk
    simp [hn, h.children, h.find]

end AfterMakeDir

section AfterDelete

variable {C : Crypto KR} {t t' : Tree} {w w' : World} {s s' : Session KR} {p : Path}
  {trash : Bool} {req : DeleteReq}

/-- A listing that is fresh is fresh at any earlier time. -/
theorem getList_earlier {c : MetaCache.Cache KR} {now now' : ℤ} (hle : now ≤ now')
    {r : List Link × KR} (h : c.getList now' p = some r) : c.getList now p = some r := by
  simp only [MetaCache.Cache.getList, Option.map_eq_some_iff, Option.filter_eq_some_iff,
    decide_eq_true_eq] at h ⊢
  obtain ⟨e, ⟨he, hfresh⟩, hr⟩ := h
  exact ⟨e, ⟨he, by omega⟩, hr⟩

/-- Nothing the server lists is the deleted link. -/
theorem Deleted.unlisted {id d : LinkID} (h : Deleted t t' id) {ls : List Link}
    (hls : t'.children d = some ls) : ∀ l ∈ ls, l.linkID ≠ id := by
  intro l hl
  obtain ⟨old, -, rfl⟩ := h.kept hls
  simpa using (List.mem_filter.mp hl).2

theorem Deleted.listFinds_iff {id : LinkID} {d : Path} (h : Deleted t t' id) (hr : w'.Reliable)
    (hw' : w'.Serves t'.toServer) :
    ListFinds C w' s' d id ↔
      ∃ r, s'.metaCache.getList (w'.now s'.ticks) d = some r ∧ ∃ l ∈ r.1, l.linkID = id := by
  rw [ReadYourWrites.listFinds_iff hr hw']
  refine or_iff_left ?_
  rintro ⟨-, n, ls, -, hls, l, hl, hid⟩
  exact h.unlisted hls l hl hid

/-- Only the registered links of the session can lead to the deleted link. -/
theorem Deleted.resolveFinds_iff {id : LinkID} (h : Deleted t t' id) (hs' : Keyed C s')
    (hr : w'.Reliable) (hw' : w'.Serves t'.toServer) (hp : IsAbsolute p) (hne : p ≠ ['/']) :
    ResolveFinds C w' s' p id ↔ s'.pathLinks.lookup p = some id := by
  rw [ReadYourWrites.resolveFinds_iff hr hw', found_fst hs', hp.absolute_eq]
  constructor
  · intro hf
    rcases Option.or_eq_some_iff.mp hf with hreg | ⟨-, hwalk⟩
    · exact hreg
    · rw [walk_child hp hne] at hwalk
      obtain ⟨n, hn, hid⟩ := Option.map_eq_some_iff.mp hwalk
      obtain ⟨m, -, hent⟩ := Option.bind_eq_some_iff.mp hn
      obtain ⟨ls, x, hch, hx, -, -, hxid⟩ := Tree.enter_eq_some hent
      exact absurd (hxid.trans hid) (h.unlisted hch x hx)
  · intro hreg
    rw [hreg, Option.some_or]

/-- Once no listing has the link, only an unexpired entry of the path can answer a stat with
it. -/
theorem Deleted.statFinds_iff {id : LinkID} (h : Deleted t t' id) (hr : w'.Reliable)
    (hw' : w'.Serves t'.toServer) (hclock : ClockForward w') (hp : IsAbsolute p) (hne : p ≠ ['/'])
    (hlist : ∀ r, s'.metaCache.getList (w'.now s'.ticks) (dir p) = some r →
      ∀ l ∈ r.1, l.linkID ≠ id) :
    StatFinds C w' s' p id ↔
      ∃ r, s'.metaCache.getStat (w'.now s'.ticks) p = some r ∧ r.1.linkID = id := by
  obtain ⟨m, hm, hstat⟩ := stat_answers (C := C) hr hw' s' hp hne
  simp only [StatFinds, hstat.ok_iff, statView]
  constructor
  · rintro ⟨r, hview, hid⟩
    rcases Option.or_eq_some_iff.mp hview with hg | ⟨-, hrest⟩
    · exact ⟨r, hg, hid⟩
    obtain ⟨n, -, hrest⟩ := Option.bind_eq_some_iff.mp hrest
    obtain ⟨r', hr', hf⟩ := Option.bind_eq_some_iff.mp hrest
    obtain ⟨l, hl, rfl⟩ := Option.map_eq_some_iff.mp hf
    have hmem := (findChild_some hl).1
    rcases Option.or_eq_some_iff.mp hr' with hcached | ⟨-, hfetch⟩
    · exact absurd hid (hlist r' (getList_earlier (hclock hm) hcached) l hmem)
    · obtain ⟨ls, hch, rfl⟩ := Option.map_eq_some_iff.mp hfetch
      exact absurd hid (h.unlisted hch l hmem)
  · rintro ⟨r, hg, hid⟩
    exact ⟨r, by rw [hg, Option.some_or], hid⟩

end AfterDelete

section Writes

variable {C : Crypto KR} {sealFolder : Link → KR → Path → Option String} {t t' : Tree}
  {w w' : World} {s : Session KR} {p : Path}

/-- Thirty seconds later. -/
def later (srv : Server) : World := { World.steady srv with now := fun _ => 30000000000 }

end Writes

end ProtonDrive.ReadYourWrites
