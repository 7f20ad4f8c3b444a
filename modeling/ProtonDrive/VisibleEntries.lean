import ProtonDrive.OnlineReads
import ProtonDrive.DirectoryHandlers
import ProtonDrive.EventReplay

/-!
# Which entries a directory has

Four loops over the children of a folder decide what exists: the `ListDir` handler shows the
active ones, `Stat` and `resolvePath` take the first with the name asked for, a comparison of two
listings announces the last one with a name, and the Create branch announces what its event
names. They agree exactly on the listings described here.
-/

namespace ProtonDrive.VisibleEntries
open SlashPaths KeyedMaps FallibleSteps DriveApi DriveSession RemoteTree CacheTransparency
  OnlineReads EventPoller EventReplay ChangeNotices DirectoryHandlers

variable {KR : Type}

section Loops

variable (C : Crypto KR) (kr : KR) (links : List Link)

/-- The link `decryptNames` keeps under a name. -/
def lastNamed (n : Path) : Option Link := links.reverse.find? (fun l => C.getName l kr = some n)

variable {C kr links}

theorem mem_listDirEntries {e : Entry} :
    e ∈ listDirEntries C kr links ↔
      ∃ l ∈ links, l.state = .active ∧ ∃ n, C.getName l kr = some n ∧ e = linkToEntry l n := by
  simp only [listDirEntries, List.mem_filterMap]
  constructor
  · rintro ⟨l, hl, he⟩
    split_ifs at he with hs
    obtain ⟨n, hn, rfl⟩ := Option.map_eq_some_iff.mp he
    exact ⟨l, hl, not_not.mp hs, n, hn, rfl⟩
  · rintro ⟨l, hl, hs, n, hn, rfl⟩
    exact ⟨l, hl, by simp [hs, hn]⟩

/-- An entry with a name and a link id is shown for an active link of that name. -/
theorem shown_iff {n : Path} {id : LinkID} :
    (∃ e ∈ listDirEntries C kr links, e.name = n ∧ e.linkID = id) ↔
      ∃ l ∈ links, l.state = .active ∧ C.getName l kr = some n ∧ l.linkID = id := by
  simp only [mem_listDirEntries]
  constructor
  · rintro ⟨_, ⟨l, hl, hs, m, hm, rfl⟩, rfl, rfl⟩
    exact ⟨l, hl, hs, hm, rfl⟩
  · rintro ⟨l, hl, hs, hn, rfl⟩
    exact ⟨_, ⟨l, hl, hs, n, hn, rfl⟩, rfl, rfl⟩

theorem lastNamed_some {n : Path} {l : Link} (h : lastNamed C kr links n = some l) :
    l ∈ links ∧ C.getName l kr = some n :=
  ⟨List.mem_reverse.mp (List.mem_of_find?_eq_some h), by simpa using List.find?_some h⟩

theorem lookup_decryptNames (n : Path) :
    (decryptNames C kr links).lookup n = (lastNamed C kr links n).map Link.linkID := by
  simp only [decryptNames, ofPairs, lookup_foldl_insert, AList.lookup_empty, Option.or_none,
    lastNamed, ← List.filterMap_reverse]
  rw [List.find?_filterMap]
  have hp : (fun l => ((C.getName l kr).map fun m => (m, l.linkID)).any fun p => p.1 = n) =
      fun l => decide (C.getName l kr = some n) := by
    funext l
    cases C.getName l kr <;> simp
  rw [hp]
  cases hf : links.reverse.find? (fun l => decide (C.getName l kr = some n)) with
  | none => rfl
  | some l =>
    have hn : C.getName l kr = some n := by simpa using List.find?_some hf
    simp [hn]

end Loops

/-- The comparison announces, as created, only links that are shown. -/
def DiffTidy (C : Crypto KR) (kr : KR) (old links : List Link) : Prop :=
  ∀ n l, lastNamed C kr links n = some l → (∀ o ∈ old, C.getName o kr ≠ some n) →
    l.state = .active

/-- Every creation announced for `dirPath` is of an entry that `ListDir` shows. -/
def CreationsShown (C : Crypto KR) (kr : KR) (links : List Link) (dirPath : Path)
    (evs : List DriveEvent) : Prop :=
  ∀ ev ∈ evs, ev.type = .created →
    ∃ e ∈ listDirEntries C kr links, e.linkID = ev.linkID ∧ ev.path = child dirPath e.name

theorem created_mem_diffEvents {C : Crypto KR} {w : World} {tick : ℕ} {dirPath : Path} {kr : KR}
    {old new : List Link} {ev : DriveEvent} :
    (ev ∈ diffEvents C w tick dirPath kr old new ∧ ev.type = .created) ↔
      ∃ n l, lastNamed C kr new n = some l ∧ (∀ o ∈ old, C.getName o kr ≠ some n) ∧
        ev = ⟨.created, l.linkID, child dirPath n⟩ := by
  have hold : ∀ n, (decryptNames C kr old).lookup n = none ↔
      ∀ o ∈ old, C.getName o kr ≠ some n := by
    intro n
    rw [← Option.not_isSome_iff_eq_none, lookup_decryptNames_isSome]
    simp
  simp only [diffEvents, List.mem_append, mem_namesOnlyIn, hold]
  simp only [lookup_decryptNames, Option.map_eq_some_iff]
  constructor
  · rintro ⟨⟨n, id, ⟨l, hl, rfl⟩, ho, rfl⟩ | ⟨n, id, -, -, rfl⟩, ht⟩
    · exact ⟨n, l, hl, ho, rfl⟩
    · cases ht
  · rintro ⟨n, l, hl, ho, rfl⟩
    exact ⟨.inl ⟨n, l.linkID, ⟨l, hl, rfl⟩, ho, rfl⟩, rfl⟩

section Directory

variable {C : Crypto KR} {t : Tree} {w : World} {s : Session KR} {d : Path} {id : LinkID} {kr : KR}
  {links : List Link}

/-- A link of a listing is the only one with its id. -/
theorem diff_shown_iff (hls : t.children id = some links) {tick : ℕ} {dirPath : Path}
    {old : List Link} :
    CreationsShown C kr links dirPath (diffEvents C w tick dirPath kr old links) ↔
      DiffTidy C kr old links := by
  constructor
  · intro h n l hl ho
    have hev : ⟨.created, l.linkID, child dirPath n⟩ ∈ diffEvents C w tick dirPath kr old links :=
      (created_mem_diffEvents.mpr ⟨n, l, hl, ho, rfl⟩).1
    obtain ⟨e, he, hid, -⟩ := h _ hev rfl
    obtain ⟨l', hl', hs, m, -, rfl⟩ := mem_listDirEntries.mp he
    rwa [t.link_unique hls (lastNamed_some hl).1 hls hl' hid.symm]
  · intro h ev hev ht
    obtain ⟨n, l, hl, ho, rfl⟩ := created_mem_diffEvents.mp ⟨hev, ht⟩
    obtain ⟨hmem, hname⟩ := lastNamed_some hl
    exact ⟨_, mem_listDirEntries.mpr ⟨l, hmem, h n l hl ho, n, hname, rfl⟩, rfl, rfl⟩

/-- A name in a directory belongs to one link: the first with the name is active, its key opens
and no other active link has the name. -/
def NameTidy (C : Crypto KR) (kr : KR) (links : List Link) (n : Path) : Prop :=
  ∀ l, findChild C kr n links = some l →
    l.state = .active ∧ (C.getKeyRing l kr).isSome ∧
      ∀ l' ∈ links, l'.state = .active → C.getName l' kr = some n → l'.linkID = l.linkID

/-- The `ListDir` handler returns an entry named `n` with link id `L`. -/
def ListDirShows (C : Crypto KR) (w : World) (s : Session KR) (d n : Path) (L : LinkID) : Prop :=
  ∃ entries, (listDir C w d s).result = .ok entries ∧ ∃ e ∈ entries, e.name = n ∧ e.linkID = L

def StatFinds (C : Crypto KR) (w : World) (s : Session KR) (p : Path) (L : LinkID) : Prop :=
  ∃ r, (s.stat C w p).result = .ok r ∧ r.1.linkID = L

def ResolveFinds (C : Crypto KR) (w : World) (s : Session KR) (p : Path) (L : LinkID) : Prop :=
  ∃ node, (s.resolvePath C w p).result = .ok node ∧ node.1 = L

theorem exists_ok_iff {ε σ α : Type} {o : Outcome ε σ α} {P : α → Prop} :
    (∃ a, o.result = .ok a ∧ P a) ↔ ∃ a, o.result.toOption = some a ∧ P a := by
  rcases o with ⟨e | a, s⟩ <;> simp [Except.toOption]

theorem listDirShows_iff (hr : w.Reliable) (hw : w.Serves t.toServer) (h : Mirrors C t s)
    (hlist : t.listOf C d = some (links, kr)) {n : Path} {L : LinkID} :
    ListDirShows C w s d n L ↔
      ∃ l ∈ links, l.state = .active ∧ C.getName l kr = some n ∧ l.linkID = L := by
  have hres := listChildren_toOption hr hw h d
  rw [hlist] at hres
  have hok : (listDir C w d s).result = .ok (listDirEntries C kr links) := by
    revert hres
    simp only [listDir]
    rcases s.listChildren C w d with ⟨e | r, s₁⟩
    · intro hres
      cases hres
    · intro hres
      cases hres
      rfl
  simp only [ListDirShows, hok, Except.ok.injEq, exists_eq_left', shown_iff]

theorem locate_child (hd : IsAbsolute d) {n : Path} (hn : IsComponent n)
    (hloc : t.locate C d = some (id, kr)) : t.locate C (child d n) = t.enter C (id, kr) n := by
  obtain ⟨es, he, rfl⟩ := hd
  have hes : ∀ e ∈ es ++ [n], IsComponent e := components_concat he hn
  rw [locate_render he] at hloc
  obtain ⟨k, hk, hdesc⟩ := Option.bind_eq_some_iff.mp hloc
  rw [child_render he, locate_render hes, hk, Option.bind_some, Tree.descend_append, hdesc]
  simp [Tree.descend]

theorem statOf_child (hd : IsAbsolute d) {n : Path} (hn : IsComponent n)
    (hlist : t.listOf C d = some (links, kr)) :
    t.statOf C (child d n) = (findChild C kr n links).map fun l => (l, kr) := by
  obtain ⟨es, he, rfl⟩ := hd
  have hes : ∀ e ∈ es ++ [n], IsComponent e := components_concat he hn
  have hroot : render (es ++ [n]) ≠ ['/'] := by
    intro hr
    have hnil := (render_eq_root_iff hes).mp hr
    simp at hnil
  rw [child_render he, Tree.statOf, absolute_render hes, if_neg hroot, Tree.childOf,
    dir_render_concat he hn.noSlash, base_render_concat es hn, hlist]
  rfl

theorem statFinds_iff (hr : w.Reliable) (hw : w.Serves t.toServer) (h : Mirrors C t s)
    (hd : IsAbsolute d) (hlist : t.listOf C d = some (links, kr)) {n : Path}
    (hn : IsComponent n) {L : LinkID} :
    StatFinds C w s (child d n) L ↔
      ∃ l, findChild C kr n links = some l ∧ l.linkID = L := by
  rw [StatFinds, exists_ok_iff, stat_toOption hr hw h, statOf_child hd hn hlist]
  cases findChild C kr n links <;> simp

theorem resolveFinds_iff (hr : w.Reliable) (hw : w.Serves t.toServer) (h : Mirrors C t s)
    (hd : IsAbsolute d) (hloc : t.locate C d = some (id, kr)) (hls : t.children id = some links)
    {n : Path} (hn : IsComponent n) {L : LinkID} :
    ResolveFinds C w s (child d n) L ↔
      ∃ l, findChild C kr n links = some l ∧ (C.getKeyRing l kr).isSome ∧ l.linkID = L := by
  rw [ResolveFinds, exists_ok_iff, resolvePath_toOption hr hw h, locate_child hd hn hloc]
  simp only [Tree.enter, hls, Option.bind_some, Option.bind_eq_some_iff, Option.map_eq_some_iff]
  constructor
  · rintro ⟨m, ⟨l, hl, k, hk, rfl⟩, rfl⟩
    exact ⟨l, hl, by rw [hk]; rfl, rfl⟩
  · rintro ⟨l, hl, hk, rfl⟩
    obtain ⟨k, hk⟩ := Option.isSome_iff_exists.mp hk
    exact ⟨_, ⟨l, hl, k, hk, rfl⟩, rfl⟩

/-- Listing, stat and resolution agree on a name exactly when it belongs to one link. -/
theorem name_agrees_iff (hr : w.Reliable) (hw : w.Serves t.toServer) (h : Mirrors C t s)
    (hd : IsAbsolute d) (hloc : t.locate C d = some (id, kr)) (hls : t.children id = some links)
    {n : Path} (hn : IsComponent n) :
    (∀ L, (ListDirShows C w s d n L ↔ StatFinds C w s (child d n) L) ∧
      (ListDirShows C w s d n L ↔ ResolveFinds C w s (child d n) L)) ↔
    NameTidy C kr links n := by
  have hlist : t.listOf C d = some (links, kr) := by simp [Tree.listOf, hloc, hls]
  simp only [listDirShows_iff hr hw h hlist, statFinds_iff hr hw h hd hlist hn,
    resolveFinds_iff hr hw h hd hloc hls hn]
  constructor
  · intro hag l hl
    obtain ⟨hstat, hres⟩ := hag l.linkID
    have hshown := hstat.mpr ⟨l, hl, rfl⟩
    obtain ⟨f, hf, hk, -⟩ := hres.mp hshown
    obtain ⟨l', hl', hs, -, hid⟩ := hshown
    have hfl : f = l := Option.some.inj (hf.symm.trans hl)
    refine ⟨?_, hfl ▸ hk, ?_⟩
    · rw [t.link_unique hls (findChild_some hl).1 hls hl' hid.symm]
      exact hs
    · intro x hx hxs hxn
      obtain ⟨g, hg, hgid⟩ := (hag x.linkID).1.mp ⟨x, hx, hxs, hxn, rfl⟩
      rw [← hgid, Option.some.inj (hg.symm.trans hl)]
  · intro htidy L
    have only : (∃ l ∈ links, l.state = .active ∧ C.getName l kr = some n ∧ l.linkID = L) ↔
        ∃ l, findChild C kr n links = some l ∧ l.linkID = L := by
      constructor
      · rintro ⟨l, hl, hs, hname, rfl⟩
        cases hf : findChild C kr n links with
        | none => exact absurd hname (by simpa using List.find?_eq_none.mp hf l hl)
        | some f => exact ⟨f, rfl, ((htidy f hf).2.2 l hl hs hname).symm⟩
      · rintro ⟨l, hl, rfl⟩
        exact ⟨l, (findChild_some hl).1, (htidy l hl).1, (findChild_some hl).2, rfl⟩
    refine ⟨only, only.trans ?_⟩
    constructor
    · rintro ⟨l, hl, rfl⟩
      exact ⟨l, hl, (htidy l hl).2.1, rfl⟩
    · rintro ⟨l, hl, -, rfl⟩
      exact ⟨l, hl, rfl⟩

/-- A comparison against the server announces only shown links exactly when it is tidy. -/
theorem diffAndEmit_shown_iff (hr : w.Reliable) (hw : w.Serves t.toServer)
    (hls : t.children id = some links) (dirPath : Path) (old : List Link) :
    (∀ evs, (diffAndEmit C w dirPath id kr old s).result = .ok evs →
      CreationsShown C kr links dirPath evs) ↔ DiffTidy C kr old links := by
  have hspec := diffAndEmit_spec (C := C) (w := w) dirPath id kr old s
  rw [hw s.ticks, hls] at hspec
  rcases ho : diffAndEmit C w dirPath id kr old s with ⟨e | evs, s₁⟩
  · rw [ho] at hspec
    have hnone := hspec.2 (hr _)
    cases hnone
  · rw [ho] at hspec
    obtain ⟨new, -, hnew, rfl, -⟩ := hspec
    cases hnew
    have hshown : CreationsShown C kr links dirPath
        (diffEvents C w (s.ticks + 2) dirPath kr old links) ↔ DiffTidy C kr old links :=
      diff_shown_iff hls
    rw [← hshown]
    constructor
    · intro h
      exact h _ rfl
    · rintro h _ he
      cases he
      exact h

/-- What a Create event announces: the link it names, else what a comparison finds. -/
def CreateTidy (C : Crypto KR) (t : Tree) (s : Session KR) (link : Link) (links : List Link) :
    Prop :=
  match createdAs C t.toServer s link with
  | some _ => ∃ l ∈ links, l.linkID = link.linkID ∧ l.state = .active
  | none => ∀ c, comparison s (s.linkPath link.parentLinkID) link.parentLinkID = some c →
      DiffTidy C c.kr c.old links

/-- The API describes the link of the event as the listing does, or leaves its name out. -/
def Describes (C : Crypto KR) (t : Tree) (kr : KR) (links : List Link) (link : Link) : Prop :=
  ∀ l ∈ links, l.linkID = link.linkID → t.link link.linkID = some l ∧
    (C.getName link kr = none ∨ C.getName link kr = C.getName l kr)

/-- The notifications of a Create event, by the attempt that makes them. -/
theorem handleCreate_cases (hr : w.Reliable) (hw : w.Serves t.toServer) (link : Link)
    (hls : t.children link.parentLinkID = some links) :
    (handleCreate C w link s).Sat
      (fun evs _ => match createdAs C t.toServer s link with
        | some m => evs = [⟨.created, link.linkID, child (s.linkPath link.parentLinkID) m⟩]
        | none => match comparison s (s.linkPath link.parentLinkID) link.parentLinkID with
          | some c => ∃ tick, evs =
              diffEvents C w tick (s.linkPath link.parentLinkID) c.kr c.old links
          | none => ∀ ev ∈ evs, ev.type ≠ .created)
      (fun _ _ => False) := by
  have hk : (invalidateCreated w link s).nodeKRs = s.nodeKRs := by
    simp only [invalidateCreated]
    split_ifs <;> rfl
  have hname := announcedName_serves (C := C) hw hr hk link
  simp only [handleCreate, announceCreate]
  refine Outcome.Sat.recover ((announceCreated_spec link _ _).mono ?_ fun _ _ h => h) ?_
  · rintro _ _ ⟨m, s₂, hm, -, -, rfl, -⟩
    rw [hname] at hm
    simp only [hm]
  rintro _ s₂ ⟨ht, hnone⟩
  rw [hname] at hnone
  simp only [hnone]
  have hk₂ : s₂.nodeKRs = s.nodeKRs := ht.kept.nodeKRs.trans hk
  have hdiff : diffable (s.linkPath link.parentLinkID) link.parentLinkID
      (s.metaCache.getListStale (s.linkPath link.parentLinkID)) s₂ =
      diffable (s.linkPath link.parentLinkID) link.parentLinkID
      (s.metaCache.getListStale (s.linkPath link.parentLinkID)) s := by
    simp only [diffable]
    rw [hk₂]
  refine Outcome.Sat.recover ((diffCached_spec (hr _) _ _ _).mono ?_ fun _ _ h => h) ?_
  · rintro _ _ ⟨r, new, hd, hnew, rfl, -⟩
    rw [hdiff] at hd
    rw [hw, hls] at hnew
    cases hnew
    simp only [comparison, hd, Option.map_some]
    exact ⟨_, rfl⟩
  · rintro _ s₃ (⟨-, hd⟩ | ⟨-, -, hn⟩)
    · rw [hdiff] at hd
      simp only [comparison, hd, Option.map_none, announceChanged]
      intro ev hev
      split_ifs at hev
      · cases hev
      · cases List.mem_singleton.mp hev
        simp
    · rw [hw, hls] at hn
      cases hn

/-- The link that a Create event names is shown exactly when it is active in the listing. -/
theorem announced_shown_iff {link : Link} {m dirPath : Path}
    (hkr : ∀ {k}, s.nodeKRs.lookup link.parentLinkID = some k → k = kr)
    (hlink : Describes C t kr links link) (hc : createdAs C t.toServer s link = some m) :
    CreationsShown C kr links dirPath [⟨.created, link.linkID, child dirPath m⟩] ↔
      ∃ l ∈ links, l.linkID = link.linkID ∧ l.state = .active := by
  simp only [createdAs] at hc
  split_ifs at hc with hpath
  obtain ⟨k, hk, hm⟩ := Option.bind_eq_some_iff.mp hc
  obtain rfl := hkr hk
  have hname := (Option.filter_eq_some_iff.mp hm).1
  constructor
  · intro hshown
    obtain ⟨e, he, hid, -⟩ := hshown _ List.mem_cons_self rfl
    obtain ⟨l, hl, hs, n, -, rfl⟩ := mem_listDirEntries.mp he
    exact ⟨l, hl, hid, hs⟩
  · rintro ⟨l, hl, hid, hs⟩ ev hev -
    cases List.mem_singleton.mp hev
    obtain ⟨hget, hn⟩ := hlink l hl hid
    have hl' : C.getName l k = some m := by
      rw [hget, Option.bind_some] at hname
      rcases hn with hn | hn
      · simpa [hn] using hname
      · simpa [hn] using hname
    exact ⟨_, mem_listDirEntries.mpr ⟨l, hl, hs, m, hl', rfl⟩, hid, rfl⟩

/-- A comparison is made with a cached keyring of the directory. -/
theorem comparison_kr {dirPath : Path} {id : LinkID} {c : Comparison KR}
    (h : comparison s dirPath id = some c) : s.nodeKRs.lookup id = some c.kr := by
  simp only [comparison, diffable, Option.map_eq_some_iff] at h
  obtain ⟨r, hr, rfl⟩ := h
  split_ifs at hr
  simp only [Option.bind_eq_some_iff, Option.map_eq_some_iff] at hr
  obtain ⟨_, -, k, hk, rfl⟩ := hr
  exact hk

theorem handleCreate_shown_iff (hr : w.Reliable) (hw : w.Serves t.toServer) (h : Mirrors C t s)
    {link : Link} (hloc : t.locate C d = some (link.parentLinkID, kr))
    (hls : t.children link.parentLinkID = some links) (hlink : Describes C t kr links link) :
    (∀ evs, (handleCreate C w link s).result = .ok evs →
      CreationsShown C kr links (s.linkPath link.parentLinkID) evs) ↔
    CreateTidy C t s link links := by
  have hkr : ∀ {k}, s.nodeKRs.lookup link.parentLinkID = some k → k = kr := by
    intro k hk
    obtain ⟨p, hp⟩ := h.node hk
    exact (Tree.locate_unique hp hloc).1
  have hcases := handleCreate_cases (C := C) (s := s) hr hw link hls
  rcases ho : handleCreate C w link s with ⟨e | evs, s₁⟩
  · rw [ho] at hcases
    exact hcases.elim
  rw [ho] at hcases
  have honly : (∀ evs', (⟨.ok evs, s₁⟩ : Attempt KR).result = .ok evs' →
      CreationsShown C kr links (s.linkPath link.parentLinkID) evs') ↔
      CreationsShown C kr links (s.linkPath link.parentLinkID) evs := by
    constructor
    · intro h
      exact h evs rfl
    · rintro h _ he
      cases he
      exact h
  rw [honly]
  simp only [Outcome.Sat] at hcases
  simp only [CreateTidy]
  cases hc : createdAs C t.toServer s link with
  | some m =>
    simp only [hc] at hcases ⊢
    rw [hcases]
    exact announced_shown_iff hkr hlink hc
  | none =>
    simp only [hc] at hcases ⊢
    cases hcomp : comparison s (s.linkPath link.parentLinkID) link.parentLinkID with
    | some c =>
      simp only [hcomp] at hcases ⊢
      obtain ⟨tick, rfl⟩ := hcases
      rw [hkr (comparison_kr hcomp), diff_shown_iff hls]
      simp only [Option.some.injEq, forall_eq']
      rw [hkr (comparison_kr hcomp)]
    | none =>
      simp only [hcomp] at hcases ⊢
      constructor
      · intro _ c hc
        cases hc
      · intro _ ev hev ht
        exact absurd ht (hcases ev hev)

/-- One notion of a visible entry: listing, stat and resolution agree on every name, and nothing
that `ListDir` would not show is announced as created. -/
structure OneNotion (C : Crypto KR) (w : World) (s : Session KR) (d : Path) (kr : KR)
    (links old : List Link) (link : Link) : Prop where
  names : ∀ n, IsComponent n → ∀ L,
    (ListDirShows C w s d n L ↔ StatFinds C w s (child d n) L) ∧
      (ListDirShows C w s d n L ↔ ResolveFinds C w s (child d n) L)
  compared : ∀ evs, (diffAndEmit C w d link.parentLinkID kr old s).result = .ok evs →
    CreationsShown C kr links d evs
  created : ∀ evs, (handleCreate C w link s).result = .ok evs →
    CreationsShown C kr links (s.linkPath link.parentLinkID) evs

/-- The listings and events on which the loops agree. -/
structure Tidy (C : Crypto KR) (t : Tree) (s : Session KR) (kr : KR) (links old : List Link)
    (link : Link) : Prop where
  names : ∀ n, IsComponent n → NameTidy C kr links n
  compared : DiffTidy C kr old links
  created : CreateTidy C t s link links

/-- For a folder with any listing, an older listing of it and an event that creates a link in
it. -/
theorem one_notion_iff (hr : w.Reliable) (hw : w.Serves t.toServer) (h : Mirrors C t s)
    (hd : IsAbsolute d) {link : Link} (hloc : t.locate C d = some (link.parentLinkID, kr))
    (hls : t.children link.parentLinkID = some links) (hlink : Describes C t kr links link)
    (old : List Link) :
    OneNotion C w s d kr links old link ↔ Tidy C t s kr links old link := by
  have hnames : ∀ n, IsComponent n → _ := fun n hn => name_agrees_iff hr hw h hd hloc hls hn
  have hcompared : (∀ evs, (diffAndEmit C w d link.parentLinkID kr old s).result = .ok evs →
      CreationsShown C kr links d evs) ↔ DiffTidy C kr old links :=
    diffAndEmit_shown_iff hr hw hls d old
  have hcreated := handleCreate_shown_iff hr hw h hloc hls hlink
  constructor
  · intro hone
    exact ⟨fun n hn => (hnames n hn).mp (hone.names n hn), hcompared.mp hone.compared,
      hcreated.mp hone.created⟩
  · intro htidy
    exact ⟨fun n hn => (hnames n hn).mpr (htidy.names n hn), hcompared.mpr htidy.compared,
      hcreated.mpr htidy.created⟩

end Directory

section Samples

/-- A file in the trash and an active one with its name. -/
def namesakes : List Link :=
  [{ plainFile "old" "root" "a" 1 "r" with state := .trashed }, plainFile "new" "root" "a" 1 "r"]

def namesakeTree : Tree := flatTree namesakes (by decide) (by decide)

theorem namesakeTree_root :
    namesakeTree.locate Crypto.plain ['/'] = some ("root", ()) := by
  rw [Tree.locate_root]
  rfl

/-- `ListDir` shows the active file, and `Stat` finds the one in the trash. -/
theorem one_notion_fails :
    ¬ OneNotion Crypto.plain (World.steady namesakeTree.toServer) (newSession "root" none) ['/'] ()
      namesakes [] (plainFile "new" "root" "a" 1 "r") := by
  intro hone
  have hr : (World.steady namesakeTree.toServer).Reliable := fun _ => rfl
  have hw : (World.steady namesakeTree.toServer).Serves namesakeTree.toServer := fun _ => rfl
  have hm : Mirrors Crypto.plain namesakeTree (newSession "root" none) := mirrors_newSession none
  have hn : IsComponent "a".toList := by decide
  have htidy := (name_agrees_iff hr hw hm isAbsolute_root namesakeTree_root rfl hn).mp
    (hone.names _ hn)
  have hfirst : findChild Crypto.plain () "a".toList namesakes = namesakes.head? := by decide
  exact absurd (htidy _ hfirst).1 (by decide)

def aFile : Link := plainFile "new" "root" "a" 1 "r"

def oneFileTree : Tree := flatTree [aFile] (by decide) (by decide)

theorem one_notion_oneFile :
    OneNotion Crypto.plain (World.steady oneFileTree.toServer) (newSession "root" none) ['/'] ()
      [aFile] [] aFile := by
  have hloc : oneFileTree.locate Crypto.plain ['/'] = some (aFile.parentLinkID, ()) := by
    rw [Tree.locate_root]
    rfl
  have hlink : Describes Crypto.plain oneFileTree () [aFile] aFile := by
    intro l hl _
    obtain rfl := List.mem_singleton.mp hl
    exact ⟨rfl, .inr rfl⟩
  refine (one_notion_iff (fun _ => rfl) (fun _ => rfl) (mirrors_newSession none) isAbsolute_root
    hloc rfl hlink []).mpr ⟨?_, ?_, ?_⟩
  · intro n _ l hl
    obtain rfl := List.mem_singleton.mp (findChild_some hl).1
    refine ⟨rfl, rfl, ?_⟩
    intro l' hl' _ _
    rw [List.mem_singleton.mp hl']
  · intro n l hl _
    rw [List.mem_singleton.mp (lastNamed_some hl).1]
    rfl
  · intro c hc
    cases hc

end Samples

end ProtonDrive.VisibleEntries
