import ProtonDrive.RemoteTree

/-!
# Cache transparency on an unchanging server

The joint invariant of the session's maps: every entry repeats what the plain walk of the
remote tree finds. Each operation keeps it, also when it fails midway, and no operation
other than an invalidation removes a stat or a listing. Hence successful results are those
of the plain walk, and what was served once is served again offline.
-/

namespace ProtonDrive.CacheTransparency
open SlashPaths KeyedMaps FallibleSteps DriveApi DriveSession RemoteTree

variable {KR : Type} {C : Crypto KR} {t : Tree} {w : World} {s s' : Session KR}

/-- Every cached fact is a fact of the tree. -/
structure Mirrors (C : Crypto KR) (t : Tree) (s : Session KR) : Prop where
  root : s.rootID = t.rootID
  share : ∀ {kr}, s.shareKR = some kr → C.shareKeyRing t.share = some kr
  node : ∀ {id kr}, s.nodeKRs.lookup id = some kr → ∃ p, t.locate C p = some (id, kr)
  path : ∀ {p id}, s.pathLinks.lookup p = some id → ∃ kr, t.locate C p = some (id, kr)
  list : ∀ {p e}, s.metaCache.lists.lookup p = some e → t.listOf C p = some (e.links, e.parentKR)
  stat : ∀ {p e}, s.metaCache.stats.lookup p = some e → t.statOf C p = some (e.link, e.parentKR)

/-- No stat and no listing is lost. -/
structure Grows (s s' : Session KR) : Prop where
  stats : ∀ {p}, (s.metaCache.stats.lookup p).isSome → (s'.metaCache.stats.lookup p).isSome
  lists : ∀ {p}, (s.metaCache.lists.lookup p).isSome → (s'.metaCache.lists.lookup p).isSome

theorem Grows.refl (s : Session KR) : Grows s s := ⟨id, id⟩

theorem Grows.trans {s₁ s₂ s₃ : Session KR} (h : Grows s₁ s₂) (h' : Grows s₂ s₃) : Grows s₁ s₃ :=
  ⟨fun hp => h'.stats (h.stats hp), fun hp => h'.lists (h.lists hp)⟩

/-- The state a step from `s` may leave behind. -/
structure Good (C : Crypto KR) (t : Tree) (s s' : Session KR) : Prop where
  mirrors : Mirrors C t s'
  grows : Grows s s'

theorem Good.trans {s₁ s₂ s₃ : Session KR} (h : Good C t s₁ s₂) (h' : Good C t s₂ s₃) :
    Good C t s₁ s₃ := ⟨h'.mirrors, h.grows.trans h'.grows⟩

section Updates

theorem Mirrors.tick (h : Mirrors C t s) : Good C t s s.tick :=
  ⟨⟨h.root, h.share, h.node, h.path, h.list, h.stat⟩, fun h => h, fun h => h⟩

theorem Mirrors.setLinkPath (h : Mirrors C t s) (id : LinkID) (p : Path) :
    Good C t s (s.setLinkPath id p) :=
  ⟨⟨h.root, h.share, h.node, h.path, h.list, h.stat⟩, fun h => h, fun h => h⟩

theorem Mirrors.setPathLink (h : Mirrors C t s) {id : LinkID} {p : Path} {kr : KR}
    (hp : t.locate C p = some (id, kr)) : Good C t s (s.setPathLink p id) := by
  refine ⟨⟨h.root, h.share, h.node, ?_, h.list, h.stat⟩, fun h => h, fun h => h⟩
  intro q i hq
  simp only [Session.setPathLink, lookup_insert_ite] at hq
  split_ifs at hq with hqp
  · cases hq
    exact ⟨kr, hqp ▸ hp⟩
  · exact h.path hq

theorem Mirrors.setNodeKR (h : Mirrors C t s) {id : LinkID} {p : Path} {kr : KR}
    (hp : t.locate C p = some (id, kr)) : Good C t s (s.setNodeKR id kr) := by
  refine ⟨⟨h.root, h.share, ?_, h.path, h.list, h.stat⟩, fun h => h, fun h => h⟩
  intro i k hi
  simp only [Session.setNodeKR, lookup_insert_ite] at hi
  split_ifs at hi with hid
  · cases hi
    exact ⟨p, hid ▸ hp⟩
  · exact h.node hi

theorem Mirrors.setList (h : Mirrors C t s) (w : World) {p : Path} {ls : List Link} {kr : KR}
    (hp : t.listOf C p = some (ls, kr)) : Good C t s (Session.setList w s p ls kr) := by
  refine ⟨⟨h.root, h.share, h.node, h.path, ?_, h.stat⟩, fun hq => hq, ?_⟩
  · intro q e hq
    simp only [Session.setList, MetaCache.Cache.lookup_setList] at hq
    split_ifs at hq with hqp
    · cases hq
      exact hqp ▸ hp
    · exact h.list hq
  · intro q hq
    simp only [Session.setList, MetaCache.Cache.lookup_setList]
    split_ifs
    · rfl
    · exact hq

theorem Mirrors.setStat (h : Mirrors C t s) (w : World) {p : Path} {l : Link} {kr : KR}
    (hp : t.statOf C p = some (l, kr)) : Good C t s (Session.setStat w s p l kr) := by
  refine ⟨⟨h.root, h.share, h.node, h.path, h.list, ?_⟩, ?_, fun hq => hq⟩
  · intro q e hq
    simp only [Session.setStat, MetaCache.Cache.lookup_setStat] at hq
    split_ifs at hq with hqp
    · cases hq
      exact hqp ▸ hp
    · exact h.stat hq
  · intro q hq
    simp only [Session.setStat, MetaCache.Cache.lookup_setStat]
    split_ifs
    · rfl
    · exact hq

/-- An invalidation keeps the invariant: it only removes. -/
theorem Mirrors.below (h : Mirrors C t s) (hr : s'.rootID = s.rootID) (hs : s'.shareKR = s.shareKR)
    (hn : s'.nodeKRs = s.nodeKRs) (hm : s'.metaCache.Below s.metaCache)
    (hp : ∀ p id, s'.pathLinks.lookup p = some id → s.pathLinks.lookup p = some id) :
    Mirrors C t s' :=
  ⟨hr.trans h.root, fun hk => h.share (hs ▸ hk), fun hk => h.node (hn ▸ hk),
    fun hk => h.path (hp _ _ hk), fun hk => h.list (hm.lists _ _ hk),
    fun hk => h.stat (hm.stats _ _ hk)⟩

theorem Mirrors.invalidatePath (h : Mirrors C t s) (p : Path) :
    Mirrors C t (s.invalidatePath p) := by
  refine h.below rfl rfl rfl (s.metaCache.invalidatePath_below p) ?_
  intro q id hq
  simp only [Session.invalidatePath, lookup_dropKeys] at hq
  split_ifs at hq
  exact hq

theorem Mirrors.invalidateLinkID (h : Mirrors C t s) (w : World) (id : LinkID) :
    Mirrors C t (s.invalidateLinkID w id) := by
  refine h.below rfl rfl rfl (s.metaCache.invalidateLinkID_below _ id) ?_
  intro q i hq
  simp only [Session.invalidateLinkID] at hq
  split at hq
  · rw [lookup_erase_ite] at hq
    split_ifs at hq
    exact hq
  · exact hq

theorem Mirrors.invalidateAll (h : Mirrors C t s) : Mirrors C t s.invalidateAll :=
  h.below rfl rfl rfl s.metaCache.invalidateAll_below (fun _ _ hq => by cases hq)

theorem mirrors_newSession (blocks : Option BlockCache.Cache) :
    Mirrors C t (newSession t.rootID blocks) :=
  ⟨rfl, (nomatch ·), (nomatch ·), (nomatch ·), (nomatch ·), (nomatch ·)⟩

end Updates

section Specifications

/-- An error of an operation that should answer `truth`: "not found" is never a lie. -/
structure Blame {α : Type} (w : World) (e : GoError) (truth : Option α) : Prop where
  missing : ∀ q, e = .notFound q → truth = none
  offline : w.Unreachable → isOfflineError e = true ∨ ∃ q, e = .notFound q

/-- When every call is answered, an error moreover says that there is nothing to answer. -/
structure Verdict {α : Type} (w : World) (e : GoError) (truth : Option α) : Prop
    extends Blame w e truth where
  online : w.Reliable → isOfflineError e = false ∧ truth = none

/-- Without network an error is not about anything that was cached, as long as what is cached stays
so and is returned when the network fails. -/
theorem Blame.uncached {α β : Type} {e : GoError} {truth : Option α} {before after : Option β}
    (h : Blame w e truth) (hu : w.Unreachable) (htrue : before.isSome → truth.isSome)
    (hgrows : before.isSome → after.isSome) (hstale : isOfflineError e = true → after = none) :
    before = none := by
  by_contra hc
  have hsome : before.isSome := Option.isSome_iff_ne_none.mpr hc
  rcases h.offline hu with ho | ⟨q, he⟩
  · have hafter := hgrows hsome
    rw [hstale ho] at hafter
    cases hafter
  · have htruth := htrue hsome
    rw [h.missing q he] at htruth
    cases htruth

theorem Verdict.imp {α β : Type} {e : GoError} {a : Option α} {b : Option β} (h : Verdict w e a)
    (hab : a = none → b = none) : Verdict w e b :=
  ⟨⟨fun q hq => hab (h.missing q hq), h.offline⟩, fun hr => (h.online hr).imp_right hab⟩

theorem verdict_notFound {α : Type} {truth : Option α} (q : Path) (ht : truth = none) :
    Verdict w (.notFound q) truth :=
  ⟨⟨fun _ _ => ht, fun _ => .inr ⟨q, rfl⟩⟩, fun _ => ⟨rfl, ht⟩⟩

theorem verdict_crypto {α : Type} {truth : Option α} (hu : ¬w.Unreachable) (ht : truth = none) :
    Verdict w .crypto truth :=
  ⟨⟨nofun, fun hu' => absurd hu' hu⟩, fun _ => ⟨rfl, ht⟩⟩

theorem callAPI_spec (hw : w.Serves t.toServer) {α : Type} (s : Session KR)
    (answer : Server → Option α) :
    (s.callAPI w answer).Sat
      (fun a s' => s' = s.tick ∧ answer t.toServer = some a ∧ ¬w.Unreachable)
      (fun e s' => s' = s.tick ∧ Verdict w e (answer t.toServer)) := by
  unfold Session.callAPI
  cases hf : w.fails s.ticks with
  | some e =>
    refine ⟨rfl, ⟨nofun, fun hu => ?_⟩, fun hr => ?_⟩
    · cases hf.symm.trans (hu s.ticks)
      exact .inl rfl
    · cases hf.symm.trans (hr s.ticks)
  | none =>
    have hu : ¬w.Unreachable := fun hu => by cases hf.symm.trans (hu s.ticks)
    cases ha : answer (w.server s.ticks) with
    | none => exact ⟨rfl, ⟨nofun, fun h => absurd h hu⟩, fun _ => ⟨rfl, hw s.ticks ▸ ha⟩⟩
    | some a => exact ⟨rfl, hw s.ticks ▸ ha, hu⟩

theorem shareKeyRing_spec (hw : w.Serves t.toServer) (h : Mirrors C t s) :
    (s.shareKeyRing C w).Sat
      (fun kr s' => Good C t s s' ∧ C.shareKeyRing t.share = some kr)
      (fun e s' => Good C t s s' ∧ Verdict w e (C.shareKeyRing t.share)) := by
  simp only [Session.shareKeyRing]
  cases hs : s.shareKR with
  | some kr => exact ⟨⟨h, Grows.refl s⟩, h.share hs⟩
  | none =>
    refine ((callAPI_spec hw s fun srv => some srv.share).mono (fun _ _ ha => ha)
      (fun e s' he => ⟨he.1 ▸ h.tick, he.2.imp (nomatch ·)⟩)).andThen ?_
    rintro share _ ⟨rfl, hshare, hu⟩
    cases hshare
    split
    · rename_i hk
      exact ⟨h.tick, verdict_crypto hu hk⟩
    · rename_i kr hk
      have hg := h.tick.mirrors
      refine ⟨⟨⟨hg.root, fun hk' => ?_, hg.node, hg.path, hg.list, hg.stat⟩, fun h => h,
        fun h => h⟩, hk⟩
      cases hk'
      exact hk

theorem rootNodeKeyRing_spec (hw : w.Serves t.toServer) (h : Mirrors C t s) :
    (s.rootNodeKeyRing C w).Sat
      (fun kr s' => Good C t s s' ∧ t.rootKR C = some kr)
      (fun e s' => Good C t s s' ∧ Verdict w e (t.rootKR C)) := by
  simp only [Session.rootNodeKeyRing]
  cases hn : s.nodeKRs.lookup s.rootID with
  | some kr =>
    obtain ⟨p, hp⟩ := h.node hn
    refine ⟨⟨h, Grows.refl s⟩, ?_⟩
    -- the root's own walk ends at the same link, so it carries the same keyring
    cases hk : t.rootKR C with
    | none => simp [Tree.locate, hk] at hp
    | some k =>
      have hr : t.locate C ['/'] = some (s.rootID, k) := by
        rw [Tree.locate_root, hk, h.root]; rfl
      rw [(Tree.locate_unique hp hr).1]
  | none =>
    refine ((shareKeyRing_spec hw h).mono (fun _ _ ha => ha)
      (fun e s' he => ⟨he.1, he.2.imp (fun hn => by simp [Tree.rootKR, hn])⟩)).andThen ?_
    rintro shareKR s₁ ⟨hg, hshare⟩
    have hmiss : t.link s₁.rootID = none → t.rootKR C = none := by
      intro hn
      rw [hg.mirrors.root] at hn
      simp [Tree.rootKR, hshare, hn]
    refine ((callAPI_spec hw s₁ _).mono (fun _ _ ha => ha)
      (fun e s' he => ⟨he.1 ▸ hg.trans hg.mirrors.tick, he.2.imp hmiss⟩)).andThen ?_
    rintro rootLink _ ⟨rfl, hlink, hu⟩
    have hg' := hg.trans hg.mirrors.tick
    have hopen : t.rootKR C = C.getKeyRing rootLink shareKR := by
      rw [hg.mirrors.root] at hlink
      simp [Tree.rootKR, hshare, hlink]
    split
    · rename_i hk
      exact ⟨hg', verdict_crypto hu (hopen.trans hk)⟩
    · rename_i kr hk
      have hroot : t.rootKR C = some kr := hopen.trans hk
      have hloc : t.locate C ['/'] = some (s₁.tick.rootID, kr) := by
        rw [Tree.locate_root, hroot, hg'.mirrors.root]; rfl
      exact ⟨hg'.trans (hg'.mirrors.setNodeKR hloc), hroot⟩

theorem descend_cons_of_find {n : Node KR} {part : Path} {parts : List Path}
    {ls : List Link} (hls : t.children n.1 = some ls) :
    t.descend C n (part :: parts) = (findChild C n.2 part ls).bind fun l =>
      (C.getKeyRing l n.2).bind fun kr => t.descend C (l.linkID, kr) parts := by
  simp only [Tree.descend, Tree.enter, hls, Option.bind_some, Option.bind_assoc]
  congr 1
  funext l
  cases C.getKeyRing l n.2 <;> rfl

theorem locate_render {es : List Path} (he : ∀ e ∈ es, IsComponent e) :
    t.locate C (render es) = (t.rootKR C).bind fun kr => t.descend C (t.rootID, kr) es := by
  rw [Tree.locate, splitPath_eq, elements_render he]

/-- One more component of a walk that is already known. -/
theorem locate_concat {es : List Path} {part : Path} (he : ∀ e ∈ es, IsComponent e)
    (hes : ∀ e ∈ es ++ [part], IsComponent e) {n : Node KR} (hn : t.locate C (render es) = some n)
    {ls : List Link} (hls : t.children n.1 = some ls) {l : Link}
    (hf : findChild C n.2 part ls = some l) {kr : KR} (hk : C.getKeyRing l n.2 = some kr) :
    t.locate C (render (es ++ [part])) = some (l.linkID, kr) := by
  rw [locate_render he] at hn
  rw [locate_render hes]
  obtain ⟨k, hk', hn⟩ := Option.bind_eq_some_iff.mp hn
  simp only [hk', Option.bind_some, Tree.descend_append, hn]
  rw [descend_cons_of_find hls, hf, Option.bind_some, hk]
  rfl

/-- The loop, started at a folder found on the way down, finds what the walk finds below it. -/
theorem walkParts_spec (hw : w.Serves t.toServer) (p : Path) (parts es : List Path) (n : Node KR)
    (he : ∀ e ∈ es, IsComponent e) (hparts : ∀ e ∈ parts, IsComponent e)
    (hn : t.locate C (render es) = some n) (h : Mirrors C t s) :
    (Session.walkParts C w p parts n.1 n.2 (render es) s).Sat
      (fun m s' => Good C t s s' ∧ t.descend C n parts = some m)
      (fun e s' => Good C t s s' ∧ Verdict w e (t.descend C n parts)) := by
  induction parts generalizing es n s with
  | nil => exact ⟨⟨h, Grows.refl s⟩, rfl⟩
  | cons part parts ih =>
    simp only [Session.walkParts]
    refine ((callAPI_spec hw s _).mono (fun _ _ ha => ha) (fun e s' he =>
      ⟨he.1 ▸ h.tick, he.2.imp (fun hn => by simp [Tree.descend, Tree.enter, hn])⟩)).andThen ?_
    rintro children _ ⟨rfl, hchildren, hu⟩
    have hlist : t.listOf C (render es) = some (children, n.2) := by
      simp [Tree.listOf, hn, hchildren]
    have hg := h.tick.trans (h.tick.mirrors.setList w hlist)
    have hd : t.descend C n (part :: parts) = _ := descend_cons_of_find hchildren
    cases hf : findChild C n.2 part children with
    | none =>
      dsimp only
      exact ⟨hg, verdict_notFound p (by rw [hd, hf]; rfl)⟩
    | some child =>
      cases hk : C.getKeyRing child n.2 with
      | none =>
        simp only [hk]
        exact ⟨hg, verdict_crypto hu (by rw [hd, hf, Option.bind_some, hk]; rfl)⟩
      | some childKR =>
        have hes : ∀ e ∈ es ++ [part], IsComponent e :=
          components_concat he (hparts part List.mem_cons_self)
        have hchild : t.locate C (render (es ++ [part])) = some (child.linkID, childKR) :=
          locate_concat he hes hn hchildren hf hk
        have hg₁ := hg.trans (hg.mirrors.setNodeKR hchild)
        have hg₂ := hg₁.trans (hg₁.mirrors.setLinkPath child.linkID (render (es ++ [part])))
        have hg₃ := hg₂.trans (hg₂.mirrors.setPathLink hchild)
        have hd' : t.descend C n (part :: parts) = t.descend C (child.linkID, childKR) parts := by
          rw [hd, hf, Option.bind_some, hk]
          rfl
        simp only [hk, extendPath_render he, hd']
        exact (ih (es ++ [part]) (child.linkID, childKR) hes
          (fun e hm => hparts e (List.mem_cons_of_mem _ hm)) hchild hg₃.mirrors).mono
          (fun m s' hm => ⟨hg₃.trans hm.1, hm.2⟩) (fun e s' hm => ⟨hg₃.trans hm.1, hm.2⟩)

theorem resolvePath_spec (hw : w.Serves t.toServer) (h : Mirrors C t s) (p : Path) :
    (s.resolvePath C w p).Sat
      (fun n s' => Good C t s s' ∧ t.locate C p = some n)
      (fun e s' => Good C t s s' ∧ Verdict w e (t.locate C p)) := by
  unfold Session.resolvePath
  cases hr : s.resolved (absolute p) with
  | some n =>
    simp only [hr]
    refine ⟨⟨h, Grows.refl s⟩, ?_⟩
    simp only [Session.resolved, Option.bind_eq_some_iff, Option.map_eq_some_iff] at hr
    obtain ⟨id, hid, kr, hkr, rfl⟩ := hr
    obtain ⟨kr', hp⟩ := h.path hid
    obtain ⟨q, hq⟩ := h.node hkr
    rw [(Tree.locate_unique hq hp).1, ← Tree.locate_absolute, hp]
  | none =>
    simp only [hr]
    have hg := h.setLinkPath s.rootID ['/']
    refine ((rootNodeKeyRing_spec hw hg.mirrors).mono (fun _ _ ha => ha)
      (fun e s' he => ⟨hg.trans he.1, he.2.imp (fun hn => by simp [Tree.locate, hn])⟩)).andThen ?_
    rintro kr s₁ ⟨hg₁, hroot⟩
    have hl : t.locate C ['/'] = some (s₁.rootID, kr) := by
      rw [Tree.locate_root, hroot, hg₁.mirrors.root]; rfl
    have hg₂ := (hg.trans hg₁).trans (hg₁.mirrors.setPathLink hl)
    have hp : t.locate C p = t.descend C (s₁.rootID, kr) (splitPath (absolute p)) := by
      rw [hg₁.mirrors.root, ← Tree.locate_absolute, Tree.locate, hroot, Option.bind_some]
    have hparts : ∀ e ∈ splitPath (absolute p), IsComponent e := by
      rw [splitPath_eq]
      exact elements_components _
    have hwalk := walkParts_spec hw (absolute p) (splitPath (absolute p)) [] (s₁.rootID, kr)
      (by simp) hparts hl hg₂.mirrors
    rw [← hp] at hwalk
    exact hwalk.mono (fun m s' hm => ⟨hg₂.trans hm.1, hm.2⟩)
      (fun e s' hm => ⟨hg₂.trans hm.1, hm.2⟩)

/-- Without network a failing listing was not in the cache. -/
theorem listChildren_spec (hw : w.Serves t.toServer) (h : Mirrors C t s) (p : Path) :
    (s.listChildren C w p).Sat
      (fun r s' => Good C t s s' ∧ t.listOf C p = some r ∧
        (s'.metaCache.lists.lookup p).isSome)
      (fun e s' => Good C t s s' ∧ Verdict w e (t.listOf C p) ∧
        (w.Unreachable → s.metaCache.lists.lookup p = none)) := by
  simp only [Session.listChildren]
  cases hl : s.metaCache.getList (w.now s.ticks) p with
  | some r =>
    have hs := MetaCache.Cache.getList_stale hl
    simp only [MetaCache.Cache.getListStale, Option.map_eq_some_iff] at hs
    obtain ⟨e, he, rfl⟩ := hs
    exact ⟨h.tick, h.list he, h.tick.grows.lists (by simp [he])⟩
  | none =>
    have hfetch : ((s.tick.resolvePath C w p).andThen fun node s =>
        (s.callAPI w (fun srv => srv.children node.1)).andThen fun links s =>
          ⟨.ok (links, node.2), Session.setList w s p links node.2⟩).Sat
        (fun r s' => Good C t s s' ∧ t.listOf C p = some r ∧
          (s'.metaCache.lists.lookup p).isSome)
        (fun e s' => Good C t s s' ∧ Verdict w e (t.listOf C p)) := by
      refine ((resolvePath_spec hw h.tick.mirrors p).mono (fun _ _ ha => ha)
        (fun e s' he => ⟨h.tick.trans he.1, he.2.imp (fun hn => by simp [Tree.listOf, hn])⟩)
        ).andThen ?_
      rintro node s₁ ⟨hg₁, hnode⟩
      refine ((callAPI_spec hw s₁ _).mono (fun _ _ ha => ha) (fun e s' he =>
        ⟨he.1 ▸ (h.tick.trans hg₁).trans hg₁.mirrors.tick,
          he.2.imp (fun hn => by simp [Tree.listOf, hnode, hn])⟩)).andThen ?_
      rintro links _ ⟨rfl, hlinks, -⟩
      have hlist : t.listOf C p = some (links, node.2) := by simp [Tree.listOf, hnode, hlinks]
      have hg₂ := hg₁.mirrors.tick.mirrors.setList w hlist
      refine ⟨((h.tick.trans hg₁).trans hg₁.mirrors.tick).trans hg₂, hlist, ?_⟩
      simp [Session.setList]
    apply hfetch.recover
    rintro e s₁ ⟨hg, hb⟩
    simp only [Session.staleList]
    split
    · rename_i r _ hs
      simp only [MetaCache.Cache.getListStale, Option.map_eq_some_iff] at hs
      obtain ⟨x, hx, rfl⟩ := hs
      exact ⟨hg, hg.mirrors.list hx, by simp [hx]⟩
    · rename_i hno
      have hstale : isOfflineError e = true → s₁.metaCache.lists.lookup p = none := by
        intro ho
        cases hx : s₁.metaCache.lists.lookup p with
        | none => rfl
        | some x => exact absurd (by rw [MetaCache.Cache.getListStale, hx]; rfl) (hno _ ho)
      refine ⟨hg, hb, fun hu => hb.uncached hu ?_ hg.grows.lists hstale⟩
      intro hsome
      obtain ⟨x, hx⟩ := Option.isSome_iff_exists.mp hsome
      simp [h.list hx]

theorem statUncached_spec (hw : w.Serves t.toServer) (h : Mirrors C t s) {p : Path}
    (hp : absolute p = p) :
    (s.statUncached C w p).Sat
      (fun r s' => Good C t s s' ∧ t.statOf C p = some r)
      (fun e s' => Good C t s s' ∧ Verdict w e (t.statOf C p)) := by
  simp only [Session.statUncached]
  split_ifs with hroot
  · have hst : t.statOf C p =
        (t.link t.rootID).bind fun l => (t.rootKR C).map fun kr => (l, kr) := by
      rw [Tree.statOf, hp, if_pos hroot]
    have hmiss : t.link s.rootID = none → t.statOf C p = none := by
      intro hn
      rw [h.root] at hn
      simp [hst, hn]
    refine ((callAPI_spec hw s _).mono (fun _ _ ha => ha)
      (fun e s' he => ⟨he.1 ▸ h.tick, he.2.imp hmiss⟩)).andThen ?_
    rintro l _ ⟨rfl, hl, -⟩
    rw [h.root] at hl
    refine ((rootNodeKeyRing_spec hw h.tick.mirrors).mono (fun _ _ ha => ha)
      (fun e s' he => ⟨h.tick.trans he.1, he.2.imp (fun hn => by simp [hst, hl, hn])⟩)).andThen ?_
    rintro kr s₁ ⟨hg, hkr⟩
    exact ⟨h.tick.trans hg, by simp [hst, hl, hkr]⟩
  · have hst : t.statOf C p = (t.listOf C (dir p)).bind fun r =>
        (findChild C r.2 (base p) r.1).map fun l => (l, r.2) := by
      rw [Tree.statOf, hp, if_neg hroot, Tree.childOf]
    have hmiss : t.locate C (dir p) = none → t.statOf C p = none := by
      intro hn
      simp [hst, Tree.listOf, hn]
    have hparent : (s.parentKRFor C w p).Sat
        (fun kr s' => Good C t s s' ∧ ∃ id, t.locate C (dir p) = some (id, kr))
        (fun e s' => Good C t s s' ∧ Verdict w e (t.statOf C p)) := by
      simp only [Session.parentKRFor]
      rw [hp]
      refine ((resolvePath_spec hw h (dir p)).mono (fun _ _ ha => ha)
        (fun e s' he => ⟨he.1, he.2.imp hmiss⟩)).andThen ?_
      rintro node s₁ ⟨hg, hn⟩
      exact ⟨hg, node.1, hn⟩
    apply hparent.andThen
    rintro parentKR s₁ ⟨hg₁, id, hn⟩
    refine ((listChildren_spec hw hg₁.mirrors (dir p)).mono (fun _ _ ha => ha)
      (fun e s' he => ⟨hg₁.trans he.1, he.2.1.imp (fun hl => by rw [hst, hl]; rfl)⟩)).andThen ?_
    rintro r s₂ ⟨hg₂, hr, -⟩
    have hkr : r.2 = parentKR := by
      simp only [Tree.listOf, hn, Option.bind_some, Option.map_eq_some_iff] at hr
      obtain ⟨ls, -, rfl⟩ := hr
      rfl
    rw [hr, Option.bind_some, hkr] at hst
    cases hf : findChild C parentKR (base p) r.1 with
    | some l =>
      dsimp only
      exact ⟨hg₁.trans hg₂, by rw [hst, hf]; rfl⟩
    | none =>
      dsimp only
      exact ⟨hg₁.trans hg₂, verdict_notFound p (by rw [hst, hf]; rfl)⟩

/-- Without network a failing stat was not in the cache. -/
theorem stat_spec (hw : w.Serves t.toServer) (h : Mirrors C t s) (p : Path) :
    (s.stat C w p).Sat
      (fun r s' => Good C t s s' ∧ t.statOf C p = some r ∧
        (s'.metaCache.stats.lookup (absolute p)).isSome)
      (fun e s' => Good C t s s' ∧ Verdict w e (t.statOf C p) ∧
        (w.Unreachable → s.metaCache.stats.lookup (absolute p) = none)) := by
  unfold Session.stat
  cases hl : s.metaCache.getStat (w.now s.ticks) (absolute p) with
  | some r =>
    have hs := MetaCache.Cache.getStat_stale hl
    simp only [MetaCache.Cache.getStatStale, Option.map_eq_some_iff] at hs
    obtain ⟨e, he, rfl⟩ := hs
    simp only [hl]
    exact ⟨h.tick, Tree.statOf_absolute (C := C) p ▸ h.stat he, h.tick.grows.stats (by simp [he])⟩
  | none =>
    have hfetch : ((s.tick.statUncached C w (absolute p)).andThen fun r s =>
        ⟨.ok r, Session.setStat w s (absolute p) r.1 r.2⟩).Sat
        (fun r s' => Good C t s s' ∧ t.statOf C p = some r ∧
          (s'.metaCache.stats.lookup (absolute p)).isSome)
        (fun e s' => Good C t s s' ∧ Verdict w e (t.statOf C p)) := by
      have hu := statUncached_spec hw h.tick.mirrors (absolute_absolute p)
      rw [Tree.statOf_absolute] at hu
      apply (hu.mono (fun _ _ ha => ha) (fun e s' he => ⟨h.tick.trans he.1, he.2⟩)).andThen
      rintro r s₁ ⟨hg, hr⟩
      have hg' := hg.mirrors.setStat w ((Tree.statOf_absolute (C := C) p).trans hr)
      exact ⟨(h.tick.trans hg).trans hg', hr, by simp [Session.setStat]⟩
    simp only [hl]
    apply hfetch.recover
    rintro e s₁ ⟨hg, hb⟩
    simp only [Session.staleStat]
    split
    · rename_i r _ hs
      simp only [MetaCache.Cache.getStatStale, Option.map_eq_some_iff] at hs
      obtain ⟨x, hx, rfl⟩ := hs
      exact ⟨hg, Tree.statOf_absolute (C := C) p ▸ hg.mirrors.stat hx, by simp [hx]⟩
    · rename_i hno
      have hstale : isOfflineError e = true → s₁.metaCache.stats.lookup (absolute p) = none := by
        intro ho
        cases hx : s₁.metaCache.stats.lookup (absolute p) with
        | none => rfl
        | some x => exact absurd (by rw [MetaCache.Cache.getStatStale, hx]; rfl) (hno _ ho)
      refine ⟨hg, hb, fun hu => hb.uncached hu ?_ hg.grows.stats hstale⟩
      intro hsome
      obtain ⟨x, hx⟩ := Option.isSome_iff_exists.mp hsome
      simp [← Tree.statOf_absolute (C := C) p, h.stat hx]

end Specifications

section Runs

/-- The calls whose results are cached for offline use. -/
def Replayable : Call → Prop
  | .listChildren _ | .stat _ => True
  | _ => False

/-- What the plain walk answers. -/
def expected (C : Crypto KR) (t : Tree) : Call → Option (Answer KR)
  | .resolvePath p => (t.locate C p).map .node
  | .listChildren p => (t.listOf C p).map fun r => .listing r.1 r.2
  | .stat p => (t.statOf C p).map fun r => .link r.1 r.2
  | _ => some .done

/-- The session after a sequence of calls, each in a world of its own. -/
def runCalls (C : Crypto KR) (s : Session KR) (calls : List (World × Call)) : Session KR :=
  calls.foldl (fun s x => (exec C x.1 s x.2).state) s

theorem exec_spec (hw : w.Serves t.toServer) (h : Mirrors C t s) (c : Call) :
    (exec C w s c).Sat
      (fun a s' => Mirrors C t s' ∧ (¬c.Invalidates → Grows s s') ∧ expected C t c = some a)
      (fun e s' => Mirrors C t s' ∧ (¬c.Invalidates → Grows s s') ∧
        ∀ q, e = .notFound q → expected C t c = none) := by
  cases c with
  | resolvePath p =>
    refine ((resolvePath_spec hw h p).mono (fun _ _ ha => ha) (fun e s' he =>
      ⟨he.1.mirrors, fun _ => he.1.grows, fun q hq => ?_⟩)).andThen ?_
    · rintro n s₁ ⟨hg, hn⟩
      exact ⟨hg.mirrors, fun _ => hg.grows, by simp [expected, hn]⟩
    · simp [expected, he.2.missing q hq]
  | listChildren p =>
    refine ((listChildren_spec hw h p).mono (fun _ _ ha => ha) (fun e s' he =>
      ⟨he.1.mirrors, fun _ => he.1.grows, fun q hq => ?_⟩)).andThen ?_
    · rintro r s₁ ⟨hg, hr, -⟩
      exact ⟨hg.mirrors, fun _ => hg.grows, by simp [expected, hr]⟩
    · simp [expected, he.2.1.missing q hq]
  | stat p =>
    refine ((stat_spec hw h p).mono (fun _ _ ha => ha) (fun e s' he =>
      ⟨he.1.mirrors, fun _ => he.1.grows, fun q hq => ?_⟩)).andThen ?_
    · rintro r s₁ ⟨hg, hr, -⟩
      exact ⟨hg.mirrors, fun _ => hg.grows, by simp [expected, hr]⟩
    · simp [expected, he.2.1.missing q hq]
  | invalidatePath p => exact ⟨h.invalidatePath p, fun hc => absurd trivial hc, rfl⟩
  | invalidateLinkID id => exact ⟨h.invalidateLinkID w id, fun hc => absurd trivial hc, rfl⟩
  | invalidateAll => exact ⟨h.invalidateAll, fun hc => absurd trivial hc, rfl⟩

theorem exec_mirrors (hw : w.Serves t.toServer) (h : Mirrors C t s) (c : Call) :
    Mirrors C t (exec C w s c).state :=
  ((exec_spec hw h c).mono (fun _ _ ha => ha.1) (fun _ _ he => he.1)).state

theorem exec_grows (hw : w.Serves t.toServer) (h : Mirrors C t s) {c : Call}
    (hc : ¬c.Invalidates) : Grows s (exec C w s c).state := by
  have hg : (exec C w s c).Sat (fun _ => Grows s) (fun _ => Grows s) :=
    (exec_spec hw h c).mono (fun _ _ ha => ha.2.1 hc) (fun _ _ he => he.2.1 hc)
  exact hg.state

theorem runCalls_mirrors (calls : List (World × Call))
    (hw : ∀ x ∈ calls, x.1.Serves t.toServer) (h : Mirrors C t s) :
    Mirrors C t (runCalls C s calls) := by
  induction calls generalizing s with
  | nil => exact h
  | cons x calls ih =>
    exact ih (fun y hy => hw y (List.mem_cons_of_mem _ hy))
      (exec_mirrors (hw x List.mem_cons_self) h x.2)

theorem runCalls_grows (calls : List (World × Call))
    (hw : ∀ x ∈ calls, x.1.Serves t.toServer ∧ ¬x.2.Invalidates) (h : Mirrors C t s) :
    Grows s (runCalls C s calls) := by
  induction calls generalizing s with
  | nil => exact Grows.refl s
  | cons x calls ih =>
    have hx := hw x List.mem_cons_self
    exact (exec_grows hx.1 h hx.2).trans
      (ih (fun y hy => hw y (List.mem_cons_of_mem _ hy)) (exec_mirrors hx.1 h x.2))

/-- A cached answer is served again without network. -/
theorem exec_offline (hw : w.Serves t.toServer) (hu : w.Unreachable) (h : Mirrors C t s)
    (hg : Grows s' s) {c : Call} {a : Answer KR} (ha : expected C t c = some a)
    (hc : (∃ p, c = .listChildren p ∧ (s'.metaCache.lists.lookup p).isSome) ∨
      ∃ p, c = .stat p ∧ (s'.metaCache.stats.lookup (absolute p)).isSome) :
    (exec C w s c).result = .ok a := by
  rcases hc with ⟨p, rfl, hp⟩ | ⟨p, rfl, hp⟩
  · have hspec := listChildren_spec hw h p
    obtain ⟨x, hx⟩ := Option.isSome_iff_exists.mp (hg.lists hp)
    simp only [exec]
    rcases hrun : s.listChildren C w p with ⟨e | r, s₁⟩
    · rw [hrun] at hspec
      cases (hspec.2.2 hu).symm.trans hx
    · rw [hrun] at hspec
      simpa [expected, hspec.2.1] using ha
  · have hspec := stat_spec hw h p
    obtain ⟨x, hx⟩ := Option.isSome_iff_exists.mp (hg.stats hp)
    simp only [exec]
    rcases hrun : s.stat C w p with ⟨e | r, s₁⟩
    · rw [hrun] at hspec
      cases (hspec.2.2 hu).symm.trans hx
    · rw [hrun] at hspec
      simpa [expected, hspec.2.1] using ha

/-- What a successful cached call has stored. -/
theorem exec_stores (hw : w.Serves t.toServer) (h : Mirrors C t s) {c : Call} {a : Answer KR}
    (hc : Replayable c) (ha : (exec C w s c).result = .ok a) :
    (∃ p, c = .listChildren p ∧
        ((exec C w s c).state.metaCache.lists.lookup p).isSome) ∨
      ∃ p, c = .stat p ∧
        ((exec C w s c).state.metaCache.stats.lookup (absolute p)).isSome := by
  cases c with
  | listChildren p =>
    have hspec := listChildren_spec hw h p
    simp only [exec] at ha ⊢
    rcases hrun : s.listChildren C w p with ⟨e | r, s₁⟩
    · rw [hrun] at ha; cases ha
    · rw [hrun] at hspec
      exact .inl ⟨p, rfl, hspec.2.2⟩
  | stat p =>
    have hspec := stat_spec hw h p
    simp only [exec] at ha ⊢
    rcases hrun : s.stat C w p with ⟨e | r, s₁⟩
    · rw [hrun] at ha; cases ha
    · rw [hrun] at hspec
      exact .inr ⟨p, rfl, hspec.2.2⟩
  | resolvePath p => cases hc
  | invalidatePath p => cases hc
  | invalidateLinkID id => cases hc
  | invalidateAll => cases hc

/-- After any calls on an unchanging server, answers are those of the plain walk, "not found"
is only said of what the walk does not find, and an answer once cached outlives the network. -/
theorem answers_are_the_walks (C : Crypto KR) (t : Tree) (blocks : Option BlockCache.Cache)
    (before : List (World × Call)) (hbefore : ∀ x ∈ before, x.1.Serves t.toServer)
    (w : World) (hw : w.Serves t.toServer) (c : Call) :
    let run := exec C w (runCalls C (newSession t.rootID blocks) before) c
    (∀ a, run.result = .ok a → expected C t c = some a) ∧
    (∀ q, run.result = .error (.notFound q) → expected C t c = none) ∧
    ∀ a, Replayable c → run.result = .ok a →
      ∀ after : List (World × Call), (∀ x ∈ after, x.1.Serves t.toServer ∧ ¬x.2.Invalidates) →
        ∀ w' : World, w'.Serves t.toServer → w'.Unreachable →
          (exec C w' (runCalls C run.state after) c).result = .ok a := by
  have hm := runCalls_mirrors before hbefore (mirrors_newSession (C := C) blocks)
  have hspec := exec_spec hw hm c
  refine ⟨fun a ha => (hspec.of_ok ha).2.2, fun q hq => (hspec.of_error hq).2.2 q rfl, ?_⟩
  intro a hc ha after hafter w' hw' hu
  have hm' := (hspec.of_ok ha).1
  have hm'' := runCalls_mirrors after (fun x hx => (hafter x hx).1) hm'
  exact exec_offline hw' hu hm'' (runCalls_grows after hafter hm') (hspec.of_ok ha).2.2
    (exec_stores hw hm hc ha)

/-- One folder "a" below the root. -/
def oneFolder : Tree where
  share := ⟨""⟩
  link id := if id = "root" then some (plainFolder "root" "" "") else
    if id = "A" then some (plainFolder "A" "root" "a") else none
  children id := if id = "root" then some [plainFolder "A" "root" "a"] else
    if id = "A" then some [] else none
  revision _ _ _ _ := none
  block _ _ := none
  rootID := "root"
  parent_of_child := by
    intro d ls l h hl
    split_ifs at h with h₁ h₂ <;> cases h <;> simp_all [plainFolder]
  root_not_child := by
    intro d ls l h hl
    split_ifs at h <;> cases h <;> simp_all [plainFolder]
  link_unique := by
    intro d ls l d' ls' l' h hl h' hl' _
    split_ifs at h h' <;> cases h <;> cases h' <;> simp_all

/-- A stat answered online is answered again after the network is gone. -/
theorem answers_are_the_walks_oneFolder :
    (exec Crypto.plain (World.steady oneFolder.toServer)
      (runCalls Crypto.plain (newSession "root" none)
        [(World.steady oneFolder.toServer, .listChildren "/".toList)])
      (.stat "/a/".toList)).result = .ok (.link (plainFolder "A" "root" "a") ()) ∧
    (exec Crypto.plain (World.cut oneFolder.toServer)
      (runCalls Crypto.plain (exec Crypto.plain (World.steady oneFolder.toServer)
        (runCalls Crypto.plain (newSession "root" none)
          [(World.steady oneFolder.toServer, .listChildren "/".toList)])
        (.stat "/a/".toList)).state [])
      (.stat "/a/".toList)).result = .ok (.link (plainFolder "A" "root" "a") ()) := by
  have h₁ : (exec Crypto.plain (World.steady oneFolder.toServer)
      (runCalls Crypto.plain (newSession "root" none)
        [(World.steady oneFolder.toServer, .listChildren "/".toList)])
      (.stat "/a/".toList)).result = .ok (.link (plainFolder "A" "root" "a") ()) := by rfl
  exact ⟨h₁, (answers_are_the_walks Crypto.plain oneFolder none
    [(World.steady oneFolder.toServer, .listChildren "/".toList)]
    (by rintro x hx n; cases List.mem_singleton.mp hx; rfl) _ (fun _ => rfl)
    (.stat "/a/".toList)).2.2 _ trivial h₁ [] nofun _ (fun _ => rfl) (fun _ => rfl)⟩

end Runs

end ProtonDrive.CacheTransparency
