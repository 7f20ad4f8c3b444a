import ProtonDrive.OnlineReads
import ProtonDrive.DirectoryHandlers
import ProtonDrive.PathMaps

/-!
# What an arbitrary session finds online

A session whose caches may be outdated resolves a path by its registered link, or else by a
walk from the root with the root keyring it has or would open. These views are functions of the
session and the server; online every read answers them. What a read leaves behind is described
next to them: which registered paths can change, and that keyrings are only added.
-/

namespace ProtonDrive.SessionViews
open SlashPaths KeyedMaps FallibleSteps DriveApi DriveSession RemoteTree CacheTransparency
  OnlineReads PathMaps

variable {KR : Type}

section Views

variable (C : Crypto KR) (t : Tree) (s : Session KR)

/-- The keyring of the root: the cached one, or the one the session would open. -/
def rootKey : Option KR :=
  (s.nodeKRs.lookup s.rootID).or
    ((s.shareKR.or (C.shareKeyRing t.share)).bind fun shareKR =>
      (t.link s.rootID).bind fun rootLink => C.getKeyRing rootLink shareKR)

/-- The walk of a path on the server, with the session's root. -/
def walk (p : Path) : Option (Node KR) :=
  (rootKey C t s).bind fun kr => t.descend C (s.rootID, kr) (splitPath p)

/-- Where the session finds a path: registered, or else at the end of the walk. -/
def found (p : Path) : Option (Node KR) := (s.resolved (absolute p)).or (walk C t s p)

/-- The listing of a path as the server answers it now. -/
def fetched (p : Path) : Option (List Link × KR) :=
  (found C t s p).bind fun n => (t.children n.1).map fun ls => (ls, n.2)

end Views

section Answers

variable {C : Crypto KR} {t : Tree} {w : World} {s s' : Session KR} {α β : Type}

/-- An operation returns the truth; without one it fails, and not for being offline. -/
def Answers (o : Step KR α) (truth : Option α) : Prop :=
  o.Sat (fun a _ => truth = some a) (fun e _ => Missing e truth)

theorem Answers.ok_iff {o : Step KR α} {truth : Option α} (h : Answers o truth) {a : α} :
    o.result = .ok a ↔ truth = some a := by
  rcases o with ⟨e | b, s₁⟩
  · simp [h.none]
  · simp [show truth = some b from h]

theorem Answers.andThen {o : Step KR α} {f : α → Session KR → Step KR β} {x : Option α}
    {y : α → Option β} (h : Answers o x)
    (hf : ∀ a s', o = ⟨.ok a, s'⟩ → Answers (f a s') (y a)) :
    Answers (o.andThen f) (x.bind y) := by
  rcases o with ⟨e | a, s₁⟩
  · exact h.imp fun hx => by rw [hx, Option.bind_none]
  · have hx : x = some a := h
    rw [hx, Option.bind_some]
    exact hf a s₁ rfl

/-- Changing the state of a success leaves the answer as it is. -/
theorem Answers.andThen_ok {o : Step KR α} {x : Option α} (h : Answers o x)
    (g : α → Session KR → Session KR) : Answers (o.andThen fun a s => ⟨.ok a, g a s⟩) x := by
  rcases o with ⟨e | a, s₁⟩
  · exact h
  · exact h

/-- A handler for offline errors changes nothing online. -/
theorem Answers.recover {o : Step KR α} {g : GoError → Session KR → Step KR α} {x : Option α}
    (h : Answers o x) (hg : ∀ e s', isOfflineError e = false → g e s' = ⟨.error e, s'⟩) :
    Answers (o.recover g) x := by
  rcases o with ⟨e | a, s₁⟩
  · rw [Outcome.recover_error, hg e s₁ h.online]
    exact h
  · exact h

theorem callAPI_answers (hr : w.Reliable) (hw : w.Serves t.toServer) (s : Session KR)
    (answer : Server → Option α) : Answers (s.callAPI w answer) (answer t.toServer) :=
  (callAPI_online hr hw s answer).mono (fun _ _ h => h.2) (fun _ _ h => h.2)

theorem shareKeyRing_answers (hr : w.Reliable) (hw : w.Serves t.toServer) (s : Session KR) :
    Answers (s.shareKeyRing C w) (s.shareKR.or (C.shareKeyRing t.share)) := by
  simp only [Session.shareKeyRing]
  cases s.shareKR with
  | some kr => exact rfl
  | none =>
    rw [Option.none_or]
    refine (callAPI_answers hr hw s fun srv => some srv.share).andThen ?_
    intro share s₁ _
    cases C.shareKeyRing share with
    | none => exact ⟨rfl, rfl⟩
    | some kr => exact rfl

theorem rootNodeKeyRing_answers (hr : w.Reliable) (hw : w.Serves t.toServer) (s : Session KR) :
    Answers (s.rootNodeKeyRing C w) (rootKey C t s) := by
  simp only [Session.rootNodeKeyRing, rootKey]
  cases s.nodeKRs.lookup s.rootID with
  | some kr => exact rfl
  | none =>
    rw [Option.none_or]
    refine (shareKeyRing_answers hr hw s).andThen ?_
    intro shareKR s₁ hs₁
    have hid : s₁.rootID = s.rootID := by
      have hsat : (s.shareKeyRing C w).Sat (fun _ s' => s'.rootID = s.rootID) fun _ _ => True := by
        simp only [Session.shareKeyRing]
        cases s.shareKR with
        | some kr => exact rfl
        | none =>
          refine ((Session.callAPI_answer w s _).mono (fun _ _ h => h.2)
            (fun _ _ _ => trivial)).andThen ?_
          intro share s₂ hs₂
          rw [hs₂]
          cases C.shareKeyRing share with
          | none => exact trivial
          | some kr => exact rfl
      rw [hs₁] at hsat
      exact hsat
    rw [← hid]
    refine (callAPI_answers hr hw s₁ _).andThen ?_
    intro rootLink s₂ _
    cases C.getKeyRing rootLink shareKR with
    | none => exact ⟨rfl, rfl⟩
    | some kr => exact rfl

theorem walkParts_answers (hr : w.Reliable) (hw : w.Serves t.toServer) (p : Path)
    (parts : List Path) (n : Node KR) (currentPath : Path) (s : Session KR) :
    Answers (Session.walkParts C w p parts n.1 n.2 currentPath s) (t.descend C n parts) := by
  induction parts generalizing n currentPath s with
  | nil => exact rfl
  | cons part parts ih =>
    have hd : t.descend C n (part :: parts) = (t.children n.1).bind fun ls =>
        (findChild C n.2 part ls).bind fun l =>
          (C.getKeyRing l n.2).bind fun kr => t.descend C (l.linkID, kr) parts := by
      cases hls : t.children n.1 with
      | none => simp [Tree.descend, Tree.enter, hls]
      | some ls => exact descend_cons_of_find hls
    rw [hd]
    simp only [Session.walkParts]
    refine (callAPI_answers hr hw s fun srv => srv.children n.1).andThen ?_
    intro children s₁ _
    cases findChild C n.2 part children with
    | none => exact ⟨rfl, rfl⟩
    | some child =>
      rw [Option.bind_some]
      cases hk : C.getKeyRing child n.2 with
      | none =>
        simp only [hk]
        exact ⟨rfl, rfl⟩
      | some childKR =>
        simp only [hk]
        exact ih (child.linkID, childKR) _ _

theorem resolvePath_answers (hr : w.Reliable) (hw : w.Serves t.toServer) (s : Session KR)
    (p : Path) : Answers (s.resolvePath C w p) (found C t s p) := by
  simp only [Session.resolvePath, found]
  cases s.resolved (absolute p) with
  | some n => exact rfl
  | none =>
    rw [Option.none_or, walk]
    have hkey : rootKey C t s = rootKey C t (s.setLinkPath s.rootID ['/']) := rfl
    rw [hkey]
    refine (rootNodeKeyRing_answers hr hw _).andThen ?_
    intro kr s₁ hs₁
    have hmaps := rootNodeKeyRing_maps (C := C) (w := w) (s.setLinkPath s.rootID ['/'])
    rw [hs₁] at hmaps
    have hsplit : splitPath (absolute p) = splitPath p := by
      simp only [splitPath_eq, elements_absolute]
    have hid : s₁.rootID = s.rootID := hmaps.2.2.1
    rw [hsplit, ← hid]
    exact walkParts_answers hr hw (absolute p) (splitPath p) (s₁.rootID, kr) _ _

theorem listChildren_answers (hr : w.Reliable) (hw : w.Serves t.toServer) (s : Session KR)
    (p : Path) :
    Answers (s.listChildren C w p)
      ((s.metaCache.getList (w.now s.ticks) p).or (fetched C t s p)) := by
  simp only [Session.listChildren]
  cases s.metaCache.getList (w.now s.ticks) p with
  | some r => exact rfl
  | none =>
    rw [Option.none_or, fetched]
    apply Answers.recover
    · refine (resolvePath_answers hr hw s.tick p).andThen ?_
      intro n s₁ _
      rw [Option.map_eq_bind]
      refine (callAPI_answers hr hw s₁ fun srv => srv.children n.1).andThen ?_
      intro links s₂ _
      exact rfl
    · intro e s' he
      simp only [Session.staleList, he]

end Answers

section Ways

/-- The paths that the walk of a path passes, from the root down to the path itself. -/
def OnWay (p r : Path) : Prop := ∃ es, es <+: elements true p ∧ r = render es

theorem OnWay.length_le {p r : Path} (h : OnWay p r) :
    (elements true r).length ≤ (elements true p).length := by
  obtain ⟨es, he, rfl⟩ := h
  rw [elements_render fun e hm => elements_components p e (he.subset hm)]
  exact he.length_le

end Ways

section Leavings

variable {C : Crypto KR} {t : Tree} {w : World} {s s₁ s' : Session KR} {on : Path → Prop}

/-- Keyrings are those of the links they are kept for; none is kept before the root's, and
registered links have one. -/
structure Keyed (C : Crypto KR) (s : Session KR) : Prop where
  root : ∀ {id kr}, s.nodeKRs.lookup id = some kr → (s.nodeKRs.lookup s.rootID).isSome
  node : ∀ {id kr}, s.nodeKRs.lookup id = some kr → id ≠ s.rootID →
    ∃ l k, l.linkID = id ∧ C.getKeyRing l k = some kr
  path : ∀ {p id}, s.pathLinks.lookup p = some id → (s.nodeKRs.lookup id).isSome

/-- The root stays, and so do the facts about the keyrings. -/
def Keeps (C : Crypto KR) (s s' : Session KR) : Prop :=
  s'.rootID = s.rootID ∧ (Keyed C s → Keyed C s')

theorem Keeps.trans (h : Keeps C s s₁) (h' : Keeps C s₁ s') : Keeps C s s' :=
  ⟨h'.1.trans h.1, fun hk => h'.2 (h.2 hk)⟩

/-- Paths are only taken out of the registered ones. -/
theorem keeps_below (hr : s'.rootID = s.rootID) (hn : s'.nodeKRs = s.nodeKRs)
    (hp : ∀ p id, s'.pathLinks.lookup p = some id → s.pathLinks.lookup p = some id) :
    Keeps C s s' :=
  ⟨hr, fun h => ⟨fun hk => by rw [hr, hn]; exact h.root (hn ▸ hk),
    fun hk hne => h.node (hn ▸ hk) (hr ▸ hne), fun hk => hn ▸ h.path (hp _ _ hk)⟩⟩

/-- What an operation leaves of a session, when it registers paths only where `on` says. -/
structure Leaves (C : Crypto KR) (w : World) (on : Path → Prop) (s s' : Session KR) : Prop where
  rootID : s'.rootID = s.rootID
  ttl : s'.metaCache.ttl = s.metaCache.ttl
  stats : s'.metaCache.stats = s.metaCache.stats
  ticks : s.ticks ≤ s'.ticks
  keys : ∀ {id}, (s.nodeKRs.lookup id).isSome → (s'.nodeKRs.lookup id).isSome
  paths : ∀ {r}, ¬on r → s'.pathLinks.lookup r = s.pathLinks.lookup r
  keyed : Keyed C s → Keyed C s'
  rootKey : ∀ t : Tree, t.rootID = s.rootID → w.Serves t.toServer →
    SessionViews.rootKey C t s' = SessionViews.rootKey C t s

theorem Leaves.refl (s : Session KR) : Leaves C w on s s :=
  ⟨rfl, rfl, rfl, le_rfl, id, fun _ => rfl, id, fun _ _ _ => rfl⟩

theorem Leaves.trans (h : Leaves C w on s s₁) (h' : Leaves C w on s₁ s') :
    Leaves C w on s s' :=
  ⟨h'.rootID.trans h.rootID, h'.ttl.trans h.ttl, h'.stats.trans h.stats, h.ticks.trans h'.ticks,
    fun hk => h'.keys (h.keys hk), fun hr => (h'.paths hr).trans (h.paths hr),
    fun hk => h'.keyed (h.keyed hk),
    fun t ht hw => (h'.rootKey t (ht.trans h.rootID.symm) hw).trans (h.rootKey t ht hw)⟩

theorem Leaves.keeps (h : Leaves C w on s s') : Keeps C s s' := ⟨h.rootID, h.keyed⟩

theorem Leaves.mono {on' : Path → Prop} (h : Leaves C w on s s') (ho : ∀ r, on r → on' r) :
    Leaves C w on' s s' :=
  ⟨h.rootID, h.ttl, h.stats, h.ticks, h.keys, fun hr => h.paths fun hon => hr (ho _ hon),
    h.keyed, h.rootKey⟩

/-- Only the listings, the recorded paths, the block cache and the tick change. -/
theorem leaves_of_eq (hr : s'.rootID = s.rootID) (hs : s'.shareKR = s.shareKR)
    (hn : s'.nodeKRs = s.nodeKRs) (hp : s'.pathLinks = s.pathLinks)
    (ht : s'.metaCache.ttl = s.metaCache.ttl) (hst : s'.metaCache.stats = s.metaCache.stats)
    (hticks : s.ticks ≤ s'.ticks) : Leaves C w on s s' := by
  refine ⟨hr, ht, hst, hticks, fun hk => hn ▸ hk, fun _ => by rw [hp],
    (keeps_below hr hn fun _ _ hq => hp ▸ hq).2, ?_⟩
  intro t _ _
  simp only [SessionViews.rootKey, hn, hs]
  rw [hr]

theorem leaves_tick (s : Session KR) : Leaves C w on s s.tick :=
  leaves_of_eq rfl rfl rfl rfl rfl rfl (Nat.le_succ _)

theorem leaves_setList (s : Session KR) (p : Path) (links : List Link) (kr : KR) :
    Leaves C w on s (Session.setList w s p links kr) :=
  leaves_of_eq rfl rfl rfl rfl rfl rfl (Nat.le_succ _)

theorem leaves_setLinkPath (s : Session KR) (id : LinkID) (p : Path) :
    Leaves C w on s (s.setLinkPath id p) :=
  leaves_of_eq rfl rfl rfl rfl rfl rfl le_rfl

/-- A link with a keyring is registered at a path. -/
theorem leaves_setPathLink {p : Path} {id : LinkID} (hon : on p)
    (hk : (s.nodeKRs.lookup id).isSome) : Leaves C w on s (s.setPathLink p id) := by
  refine ⟨rfl, rfl, rfl, le_rfl, fun h => h, ?_, ?_, fun _ _ _ => rfl⟩
  · intro r hr
    have hne : r ≠ p := fun hrp => hr (hrp ▸ hon)
    rw [Session.setPathLink, lookup_insert_ite, if_neg hne]
  · intro h
    refine ⟨h.root, h.node, ?_⟩
    intro q i hq
    simp only [Session.setPathLink, lookup_insert_ite] at hq
    split_ifs at hq
    · cases hq
      exact hk
    · exact h.path hq

theorem isSome_setNodeKR {id i : LinkID} (kr : KR) (h : (s.nodeKRs.lookup id).isSome) :
    ((s.setNodeKR i kr).nodeKRs.lookup id).isSome := by
  simp only [Session.setNodeKR, lookup_insert_ite]
  split_ifs
  · rfl
  · exact h

/-- The keyring of a child is kept; the root is no child on a server that holds a tree. -/
theorem leaves_setNodeKR {l : Link} {kr k : KR} (hroot : (s.nodeKRs.lookup s.rootID).isSome)
    (hk : C.getKeyRing l k = some kr)
    (hne : ∀ t : Tree, t.rootID = s.rootID → w.Serves t.toServer → l.linkID ≠ s.rootID) :
    Leaves C w on s (s.setNodeKR l.linkID kr) := by
  refine ⟨rfl, rfl, rfl, le_rfl, isSome_setNodeKR kr, fun _ => rfl, ?_, ?_⟩
  · intro h
    refine ⟨fun _ => isSome_setNodeKR kr hroot, ?_, fun hp => isSome_setNodeKR kr (h.path hp)⟩
    intro id kr' hid hidne
    simp only [Session.setNodeKR, lookup_insert_ite] at hid
    split_ifs at hid with he
    · cases hid
      exact ⟨l, k, he.symm, hk⟩
    · exact h.node hid hidne
  · intro t ht hw
    have hlook : (s.setNodeKR l.linkID kr).nodeKRs.lookup s.rootID = s.nodeKRs.lookup s.rootID := by
      rw [Session.setNodeKR, lookup_insert_ite, if_neg (hne t ht hw).symm]
    simp only [SessionViews.rootKey]
    change ((s.setNodeKR l.linkID kr).nodeKRs.lookup s.rootID).or _ = _
    rw [hlook]
    rfl

theorem shareKeyRing_leaves (s : Session KR) :
    (s.shareKeyRing C w).Sat
      (fun kr s' => Leaves C w on s s' ∧ s'.nodeKRs = s.nodeKRs ∧ s'.shareKR = some kr)
      (fun _ s' => Leaves C w on s s') := by
  simp only [Session.shareKeyRing]
  cases hs : s.shareKR with
  | some kr => exact ⟨.refl s, rfl, hs⟩
  | none =>
    refine ((Session.callAPI_answer w s _).mono (fun _ _ h => h) ?_).andThen ?_
    · rintro e _ ⟨-, rfl⟩
      exact leaves_tick s
    rintro share _ ⟨ha, rfl⟩
    cases hk : C.shareKeyRing share with
    | none => exact leaves_tick s
    | some kr =>
      refine ⟨⟨rfl, rfl, rfl, Nat.le_succ _, fun h => h, fun _ => rfl,
        fun h => ⟨h.root, h.node, h.path⟩, ?_⟩, rfl, rfl⟩
      intro t _ hw
      have hshare : share = t.share := by
        simp only [World.answer, hw s.ticks] at ha
        split_ifs at ha
        exact (Option.some.inj ha).symm
      simp only [SessionViews.rootKey, hs, Option.none_or, ← hshare, hk]
      rfl

/-- Opening the root registers no path. -/
theorem rootNodeKeyRing_leaves (s : Session KR) :
    (s.rootNodeKeyRing C w).Sat
      (fun kr s' => Leaves C w on s s' ∧ s'.nodeKRs.lookup s'.rootID = some kr)
      (fun _ s' => Leaves C w on s s') := by
  simp only [Session.rootNodeKeyRing]
  cases hn : s.nodeKRs.lookup s.rootID with
  | some kr => exact ⟨.refl s, hn⟩
  | none =>
    apply (shareKeyRing_leaves s).andThen
    rintro shareKR s₁ ⟨hl, hnodes, hshare⟩
    refine ((Session.callAPI_answer w s₁ _).mono (fun _ _ h => h) ?_).andThen ?_
    · rintro e _ ⟨-, rfl⟩
      exact hl.trans (leaves_tick s₁)
    rintro rootLink _ ⟨ha, rfl⟩
    cases hk : C.getKeyRing rootLink shareKR with
    | none => exact hl.trans (leaves_tick s₁)
    | some kr =>
      have hnone : s₁.tick.nodeKRs.lookup s₁.tick.rootID = none := by
        rw [← hn, ← hnodes, ← hl.rootID]
        rfl
      have hset : Leaves C w on s₁.tick (s₁.tick.setNodeKR s₁.tick.rootID kr) := by
        refine ⟨rfl, rfl, rfl, le_rfl, isSome_setNodeKR kr, fun _ => rfl, ?_, ?_⟩
        · intro h
          refine ⟨fun _ => by simp [Session.setNodeKR], ?_,
            fun hp => isSome_setNodeKR kr (h.path hp)⟩
          intro id kr' hid hne
          have hne' : id ≠ s₁.tick.rootID := hne
          simp only [Session.setNodeKR, lookup_insert_ite, if_neg hne'] at hid
          exact h.node hid hne
        · intro t ht hw
          have hlink : t.link s₁.rootID = some rootLink := by
            simp only [World.answer, hw s₁.ticks] at ha
            split_ifs at ha
            exact ha
          simp only [SessionViews.rootKey, hnone, Option.none_or]
          simp [Session.setNodeKR, Session.tick, hshare, hlink, hk]
      exact ⟨(hl.trans (leaves_tick s₁)).trans hset, by simp [Session.setNodeKR, Session.tick]⟩

/-- The loop registers the places it passes. -/
theorem walkParts_leaves (p : Path) (parts es : List Path) (id : LinkID) (kr : KR)
    (he : ∀ e ∈ es, IsComponent e) (hparts : ∀ e ∈ parts, IsComponent e) (s : Session KR)
    (hroot : (s.nodeKRs.lookup s.rootID).isSome) :
    (Session.walkParts C w p parts id kr (render es) s).Sat
      (fun _ => Leaves C w (fun r => ∃ fs, fs <+: parts ∧ r = render (es ++ fs)) s)
      (fun _ => Leaves C w (fun r => ∃ fs, fs <+: parts ∧ r = render (es ++ fs)) s) := by
  induction parts generalizing es id kr s with
  | nil => exact .refl s
  | cons part parts ih =>
    simp only [Session.walkParts]
    refine ((Session.callAPI_answer w s _).mono (fun _ _ h => h) ?_).andThen ?_
    · rintro e _ ⟨-, rfl⟩
      exact leaves_tick s
    rintro children _ ⟨ha, rfl⟩
    have hlist : Leaves C w (fun r => ∃ fs, fs <+: part :: parts ∧ r = render (es ++ fs)) s
        (Session.setList w s.tick (render es) children kr) :=
      (leaves_tick s).trans (leaves_setList s.tick (render es) children kr)
    cases hf : findChild C kr part children with
    | none => exact hlist
    | some child =>
      cases hk : C.getKeyRing child kr with
      | none =>
        simp only [hk]
        exact hlist
      | some childKR =>
        simp only [hk, extendPath_render he]
        have hne : ∀ t : Tree, t.rootID = s.rootID → w.Serves t.toServer →
            child.linkID ≠ s.rootID := by
          intro t ht hw
          simp only [World.answer, hw s.ticks] at ha
          split_ifs at ha
          exact ht ▸ t.root_not_child ha (findChild_some hf).1
        have h₁ := hlist.trans (leaves_setNodeKR (hlist.keys hroot) hk hne)
        have h₂ := h₁.trans (leaves_setLinkPath _ child.linkID (render (es ++ [part])))
        have hlook : ((((Session.setList w s.tick (render es) children kr).setNodeKR child.linkID
            childKR).setLinkPath child.linkID (render (es ++ [part]))).nodeKRs.lookup
              child.linkID).isSome := by
          simp [Session.setNodeKR, Session.setLinkPath]
        have h₃ := h₂.trans (leaves_setPathLink ⟨[part], by simp, rfl⟩ hlook)
        have hes : ∀ e ∈ es ++ [part], IsComponent e :=
          components_concat he (hparts part List.mem_cons_self)
        have hon : ∀ r, (∃ fs, fs <+: parts ∧ r = render ((es ++ [part]) ++ fs)) →
            ∃ fs, fs <+: part :: parts ∧ r = render (es ++ fs) := by
          rintro r ⟨fs, hfs, rfl⟩
          exact ⟨part :: fs, List.cons_prefix_cons.mpr ⟨rfl, hfs⟩, by simp⟩
        have hrest := ih (es ++ [part]) child.linkID childKR hes
          (fun e hm => hparts e (List.mem_cons_of_mem _ hm)) _ (h₃.keys hroot)
        exact hrest.mono (fun _ _ h => h₃.trans (h.mono hon)) (fun _ _ h => h₃.trans (h.mono hon))

theorem resolvePath_leaves (s : Session KR) (p : Path) :
    (s.resolvePath C w p).Sat (fun _ => Leaves C w (OnWay p) s)
      (fun _ => Leaves C w (OnWay p) s) := by
  simp only [Session.resolvePath]
  cases s.resolved (absolute p) with
  | some n => exact .refl s
  | none =>
    have h₀ : Leaves C w (OnWay p) s (s.setLinkPath s.rootID ['/']) := leaves_setLinkPath ..
    refine ((rootNodeKeyRing_leaves _).mono (fun _ _ h => h) (fun _ _ h => h₀.trans h)).andThen ?_
    rintro kr s₁ ⟨h₁, hk⟩
    have hroot : (s₁.nodeKRs.lookup s₁.rootID).isSome := by
      rw [hk]
      rfl
    have h₂ : Leaves C w (OnWay p) s (s₁.setPathLink ['/'] s₁.rootID) :=
      (h₀.trans h₁).trans (leaves_setPathLink ⟨[], List.nil_prefix, rfl⟩ hroot)
    have hsplit : splitPath (absolute p) = elements true p := by
      rw [splitPath_eq, elements_absolute]
    have hwalk := walkParts_leaves (C := C) (w := w) (absolute p) (splitPath (absolute p)) []
      s₁.rootID kr (by simp) (hsplit ▸ elements_components p)
      (s₁.setPathLink ['/'] s₁.rootID) hroot
    rw [hsplit] at hwalk ⊢
    have hon : ∀ r, (∃ fs, fs <+: elements true p ∧ r = render ([] ++ fs)) → OnWay p r := by
      rintro r ⟨fs, hfs, rfl⟩
      exact ⟨fs, hfs, rfl⟩
    exact hwalk.mono (fun _ _ h => h₂.trans (h.mono hon)) (fun _ _ h => h₂.trans (h.mono hon))

theorem listChildren_leaves (s : Session KR) (p : Path) :
    (s.listChildren C w p).Sat (fun _ => Leaves C w (OnWay p) s)
      (fun _ => Leaves C w (OnWay p) s) := by
  simp only [Session.listChildren]
  cases s.metaCache.getList (w.now s.ticks) p with
  | some r => exact leaves_tick s
  | none =>
    have ht : Leaves C w (OnWay p) s s.tick := leaves_tick s
    have hfetch : ((s.tick.resolvePath C w p).andThen fun node s =>
        (s.callAPI w (fun srv => srv.children node.1)).andThen fun links s =>
          ⟨.ok (links, node.2), Session.setList w s p links node.2⟩).Sat
        (fun _ => Leaves C w (OnWay p) s) (fun _ => Leaves C w (OnWay p) s) := by
      refine ((resolvePath_leaves s.tick p).mono (fun _ _ h => ht.trans h)
        (fun _ _ h => ht.trans h)).andThen ?_
      intro node s₁ h₁
      refine ((Session.callAPI_answer w s₁ _).mono (fun _ _ h => h.2)
        (fun _ _ h => by rw [h.2]; exact h₁.trans (leaves_tick s₁))).andThen ?_
      intro links s₂ hs₂
      rw [hs₂]
      exact (h₁.trans (leaves_tick s₁)).trans (leaves_setList _ p links node.2)
    apply hfetch.recover
    intro e s₁ h₁
    simp only [Session.staleList]
    split
    · exact h₁
    · exact h₁

/-- The paths a stat may register. -/
def StatWay (p r : Path) : Prop := absolute p ≠ ['/'] ∧ OnWay (dir (absolute p)) r

theorem statUncached_leaves (s : Session KR) {p : Path} (hp : absolute p = p) :
    (s.statUncached C w p).Sat (fun _ => Leaves C w (StatWay p) s)
      (fun _ => Leaves C w (StatWay p) s) := by
  simp only [Session.statUncached]
  split_ifs with hroot
  · refine ((Session.callAPI_answer w s _).mono (fun _ _ h => h.2)
      (fun _ _ h => by rw [h.2]; exact leaves_tick s)).andThen ?_
    rintro link _ rfl
    apply ((rootNodeKeyRing_leaves s.tick).mono (fun _ _ h => h)
      (fun _ _ h => (leaves_tick s).trans h)).andThen
    rintro kr s₁ ⟨h₁, -⟩
    exact (leaves_tick s).trans h₁
  · have hon : ∀ r, OnWay (dir p) r → StatWay p r := by
      intro r hr
      exact ⟨by rwa [hp], by rwa [hp]⟩
    simp only [Session.parentKRFor]
    rw [hp]
    have hparent : ((s.resolvePath C w (dir p)).andThen fun node s => ⟨.ok node.2, s⟩).Sat
        (fun _ => Leaves C w (StatWay p) s) (fun _ => Leaves C w (StatWay p) s) := by
      refine ((resolvePath_leaves s (dir p)).mono (fun _ _ h => h.mono hon)
        (fun _ _ h => h.mono hon)).andThen ?_
      intro node s₁ h₁
      exact h₁
    apply hparent.andThen
    intro parentKR s₁ h₁
    refine ((listChildren_leaves s₁ (dir p)).mono (fun _ _ h => h₁.trans (h.mono hon))
      (fun _ _ h => h₁.trans (h.mono hon))).andThen ?_
    intro r s₂ h₂
    cases findChild C parentKR (base p) r.1 with
    | none => exact h₂
    | some l => exact h₂

/-- A stat stores its answer, unless it was stored already. -/
theorem stat_leaves (s : Session KR) (p : Path) :
    (s.stat C w p).Sat
      (fun r s' => ∃ s₁, Leaves C w (StatWay p) s s₁ ∧
        ((s' = s₁ ∧ s₁.metaCache.getStatStale (absolute p) = some r) ∨
          s' = Session.setStat w s₁ (absolute p) r.1 r.2))
      (fun _ s' => Leaves C w (StatWay p) s s') := by
  simp only [Session.stat]
  cases hc : s.metaCache.getStat (w.now s.ticks) (absolute p) with
  | some r => exact ⟨s.tick, leaves_tick s, .inl ⟨rfl, MetaCache.Cache.getStat_stale hc⟩⟩
  | none =>
    have ht : Leaves C w (StatWay p) s s.tick := leaves_tick s
    have hway : StatWay (absolute p) = StatWay p := by
      funext r
      simp only [StatWay, absolute_absolute]
    have hu := statUncached_leaves (C := C) (w := w) s.tick (absolute_absolute p)
    rw [hway] at hu
    rcases hrun : s.tick.statUncached C w (absolute p) with ⟨e | r, s₁⟩
    · rw [hrun] at hu
      rw [Outcome.andThen_error, Outcome.recover_error]
      simp only [Session.staleStat]
      cases isOfflineError e with
      | false => exact ht.trans hu
      | true =>
        cases hst : s₁.metaCache.getStatStale (absolute p) with
        | none => exact ht.trans hu
        | some r => exact ⟨s₁, ht.trans hu, .inl ⟨rfl, hst⟩⟩
    · rw [hrun] at hu
      exact ⟨s₁, ht.trans hu, .inr rfl⟩

theorem stat_keeps (s : Session KR) (p : Path) : Keeps C s (s.stat C w p).state := by
  have hsat : (s.stat C w p).Sat (fun _ => Keeps C s) (fun _ => Keeps C s) := by
    refine (stat_leaves s p).mono ?_ (fun _ _ h => h.keeps)
    rintro r s' ⟨s₁, h₁, ⟨rfl, -⟩ | rfl⟩
    · exact h₁.keeps
    · exact h₁.keeps.trans (keeps_below rfl rfl fun _ _ hq => hq)
  exact hsat.state

/-- Resolving a path stores listings above it only. -/
theorem walkParts_list (p : Path) (parts es : List Path) (id : LinkID) (kr : KR)
    (he : ∀ e ∈ es ++ parts, IsComponent e) (s : Session KR) :
    (Session.walkParts C w p parts id kr (render es) s).state.metaCache.lists.lookup
      (render (es ++ parts)) = s.metaCache.lists.lookup (render (es ++ parts)) := by
  induction parts generalizing es id kr s with
  | nil => rfl
  | cons part parts ih =>
    have hes : ∀ e ∈ es, IsComponent e := fun e hm => he e (List.mem_append_left _ hm)
    have hne : render (es ++ part :: parts) ≠ render es := by
      intro hr
      have hl := congrArg List.length (render_injective he hes hr)
      simp at hl
    simp only [Session.walkParts]
    rcases Session.callAPI_cases w s (fun srv => srv.children id) with
      ⟨children, -, -, hc⟩ | ⟨e, -, hc⟩
    · rw [hc, Outcome.andThen_ok]
      have hset : (Session.setList w s.tick (render es) children kr).metaCache.lists.lookup
          (render (es ++ part :: parts)) = s.metaCache.lists.lookup
            (render (es ++ part :: parts)) := by
        simp only [Session.setList, MetaCache.Cache.lookup_setList, if_neg hne]
        rfl
      cases findChild C kr part children with
      | none => exact hset
      | some child =>
        cases hk : C.getKeyRing child kr with
        | none =>
          simp only [hk]
          exact hset
        | some childKR =>
          simp only [hk, extendPath_render hes]
          rw [List.append_cons] at he hset ⊢
          exact (ih (es ++ [part]) child.linkID childKR he _).trans hset
    · rw [hc]
      rfl

theorem rootNodeKeyRing_metaCache (s : Session KR) :
    (s.rootNodeKeyRing C w).Sat (fun _ s' => s'.metaCache = s.metaCache)
      (fun _ s' => s'.metaCache = s.metaCache) := by
  have hcall : ∀ {α : Type} (s₁ : Session KR) (answer : Server → Option α),
      (s₁.callAPI w answer).Sat (fun _ s' => s'.metaCache = s₁.metaCache)
        (fun _ s' => s'.metaCache = s₁.metaCache) := by
    intro α s₁ answer
    exact (Session.callAPI_answer w s₁ answer).mono (fun _ _ h => by rw [h.2]; rfl)
      (fun _ _ h => by rw [h.2]; rfl)
  simp only [Session.rootNodeKeyRing]
  cases s.nodeKRs.lookup s.rootID with
  | some kr => exact rfl
  | none =>
    have hshare : (s.shareKeyRing C w).Sat (fun _ s' => s'.metaCache = s.metaCache)
        (fun _ s' => s'.metaCache = s.metaCache) := by
      simp only [Session.shareKeyRing]
      cases s.shareKR with
      | some kr => exact rfl
      | none =>
        apply (hcall s _).andThen
        intro share s₁ h₁
        cases C.shareKeyRing share with
        | none => exact h₁
        | some kr => exact h₁
    apply hshare.andThen
    intro shareKR s₁ h₁
    refine ((hcall s₁ _).mono (fun _ _ h => h.trans h₁) (fun _ _ h => h.trans h₁)).andThen ?_
    intro rootLink s₂ h₂
    cases C.getKeyRing rootLink shareKR with
    | none => exact h₂
    | some kr => exact h₂

theorem resolvePath_list (s : Session KR) {p : Path} (hp : absolute p = p) :
    (s.resolvePath C w p).state.metaCache.lists.lookup p = s.metaCache.lists.lookup p := by
  simp only [Session.resolvePath]
  rw [hp]
  cases s.resolved p with
  | some n => rfl
  | none =>
    have hroot := rootNodeKeyRing_metaCache (C := C) (w := w) (s.setLinkPath s.rootID ['/'])
    rcases hrun : (s.setLinkPath s.rootID ['/']).rootNodeKeyRing C w with ⟨e | kr, s₁⟩
    · rw [hrun] at hroot
      exact congrArg (fun c => c.lists.lookup p) hroot
    · rw [hrun] at hroot
      have hsplit : splitPath p = elements true p := splitPath_eq p
      have hpr : render ([] ++ splitPath p) = p := by
        rw [List.nil_append, hsplit, ← absolute_eq_render, hp]
      have hwalk := walkParts_list (C := C) (w := w) p (splitPath p) [] s₁.rootID kr
        (by rw [List.nil_append, hsplit]; exact elements_components p)
        (s₁.setPathLink ['/'] s₁.rootID)
      rw [hpr] at hwalk
      exact hwalk.trans (congrArg (fun c => c.lists.lookup p) hroot)

end Leavings

section StatReads

variable {C : Crypto KR} {t : Tree} {w : World}

/-- What a stat of a path below the root answers: a fresh entry, or else the child that a fresh
or fetched listing of the parent has under the name. -/
def statView (C : Crypto KR) (t : Tree) (s : Session KR) (now now' : ℤ) (p : Path) :
    Option (Link × KR) :=
  (s.metaCache.getStat now p).or ((found C t s (dir p)).bind fun n =>
    ((s.metaCache.getList now' (dir p)).or
      ((t.children n.1).map fun ls => (ls, n.2))).bind fun r =>
        (findChild C n.2 (base p) r.1).map fun l => (l, n.2))

/-- The listing is looked up later than the entry. -/
theorem stat_answers (hr : w.Reliable) (hw : w.Serves t.toServer) (s : Session KR) {p : Path}
    (hp : IsAbsolute p) (hne : p ≠ ['/']) :
    ∃ m, s.ticks ≤ m ∧
      Answers (s.stat C w p) (statView C t s (w.now s.ticks) (w.now m) p) := by
  have hd : absolute (dir p) = dir p := hp.dir.absolute_eq
  simp only [Session.stat]
  rw [hp.absolute_eq]
  simp only [statView]
  cases s.metaCache.getStat (w.now s.ticks) p with
  | some r => exact ⟨s.ticks, le_rfl, rfl⟩
  | none =>
    simp only [Option.none_or, Session.statUncached, if_neg hne, Session.parentKRFor]
    rw [hp.absolute_eq]
    have hres := resolvePath_answers (C := C) hr hw s.tick (dir p)
    have hfound : found C t s.tick (dir p) = found C t s (dir p) := rfl
    rw [hfound] at hres
    have hleft := resolvePath_leaves (C := C) (w := w) s.tick (dir p)
    have hres' := resolvePath_resolved (C := C) (w := w) s.tick (dir p)
    have hlist := resolvePath_list (C := C) (w := w) s.tick hd
    rcases hrun : s.tick.resolvePath C w (dir p) with ⟨e | n, s₁⟩
    · rw [hrun] at hres
      refine ⟨s.ticks, le_rfl, ?_⟩
      simp only [Outcome.andThen_error, Outcome.recover_error, Session.staleStat, hres.online]
      exact hres.imp fun hnone => by rw [hnone, Option.bind_none]
    · rw [hrun] at hres hleft hres' hlist
      have hn : found C t s (dir p) = some n := hres
      have hn₁ : found C t s₁ (dir p) = some n := by
        rw [found, show s₁.resolved (absolute (dir p)) = some n from hres', Option.some_or]
      have hticks : s.ticks + 1 ≤ s₁.ticks := hleft.ticks
      refine ⟨s₁.ticks, by omega, ?_⟩
      have hget : s₁.metaCache.getList (w.now s₁.ticks) (dir p) =
          s.metaCache.getList (w.now s₁.ticks) (dir p) := by
        simp only [MetaCache.Cache.getList]
        rw [show s₁.metaCache.lists.lookup (dir p) = s.metaCache.lists.lookup (dir p) from hlist,
          show s₁.metaCache.ttl = s.metaCache.ttl from hleft.ttl]
      have hls := listChildren_answers (C := C) hr hw s₁ (dir p)
      rw [hget, fetched, hn₁, Option.bind_some] at hls
      rw [hn, Option.bind_some, Outcome.andThen_ok]
      apply Answers.recover
      · apply Answers.andThen_ok
        simp only [Outcome.andThen_ok]
        apply hls.andThen
        intro r s₂ _
        cases findChild C n.2 (base p) r.1 with
        | none => exact ⟨rfl, rfl⟩
        | some l => exact rfl
      · intro e s' he
        simp only [Session.staleStat, he]

end StatReads

end ProtonDrive.SessionViews
