import ProtonDrive.SessionRuns

/-!
# The keyrings of folders

`MakeDir` needs the keyring of the parent folder to be cached once `Stat` has returned the folder.
`Stat` opens the keyrings of the folders above the path, down to its directory, but not that of
the folder itself: on a server that holds a tree it adds none at the depth of the path. So the
keyring is there exactly when the folder is the root, or when it was there before.
-/

namespace ProtonDrive.FolderKeyrings
open SlashPaths KeyedMaps FallibleSteps DriveApi DriveSession RemoteTree CacheTransparency
  DirectoryHandlers SessionViews SessionRuns EventPoller

section Depths

/-- The link is this far below the root. -/
inductive AtDepth (t : Tree) : ℕ → LinkID → Prop
  | root : AtDepth t 0 t.rootID
  | child {n : ℕ} {d : LinkID} {ls : List Link} {l : Link} (h : AtDepth t n d)
      (hls : t.children d = some ls) (hl : l ∈ ls) : AtDepth t (n + 1) l.linkID

variable {KR : Type} {C : Crypto KR} {t : Tree} {n m : ℕ} {id : LinkID}

theorem AtDepth.unique (h : AtDepth t n id) (h' : AtDepth t m id) : n = m := by
  induction h generalizing m with
  | root =>
    generalize hid : t.rootID = id at h'
    cases h' with
    | root => rfl
    | child _ hls hl => exact absurd hid.symm (t.root_not_child hls hl)
  | child h hls hl ih =>
    rename_i d ls l
    generalize hid : l.linkID = id at h'
    cases h' with
    | root => exact absurd hid (t.root_not_child hls hl)
    | child h' hls' hl' =>
      -- the same link has the same parent
      have hll := t.link_unique hls hl hls' hl' hid
      have hd := t.parent_of_child hls' hl'
      rw [← hll, t.parent_of_child hls hl] at hd
      rw [ih (hd ▸ h')]

theorem atDepth_descend {a b : Node KR} {es : List Path} (h : AtDepth t n a.1)
    (hd : t.descend C a es = some b) : AtDepth t (n + es.length) b.1 := by
  induction es generalizing a n with
  | nil =>
    cases hd
    exact h
  | cons e es ih =>
    simp only [Tree.descend, Option.bind_eq_some_iff] at hd
    obtain ⟨c, hc, hd⟩ := hd
    obtain ⟨ls, l, hls, hl, -, -, hid⟩ := Tree.enter_eq_some hc
    have hnext := ih (hid ▸ h.child hls hl) hd
    rwa [List.length_cons, Nat.add_comm es.length, ← Nat.add_assoc]

/-- What the server has at a path is one below its directory. -/
theorem atDepth_statOf {p : Path} {l : Link} {kr : KR} (hp : absolute p ≠ ['/'])
    (h : t.statOf C p = some (l, kr)) :
    AtDepth t ((elements true (dir (absolute p))).length + 1) l.linkID := by
  rw [Tree.statOf, if_neg hp] at h
  simp only [Tree.childOf, Tree.listOf, Tree.locate, Option.bind_eq_some_iff,
    Option.map_eq_some_iff] at h
  obtain ⟨_, ⟨a, ⟨k, -, ha⟩, ls, hls, rfl⟩, l', hl, he⟩ := h
  cases he
  have hat := atDepth_descend .root ha
  rw [Nat.zero_add, splitPath_eq] at hat
  exact hat.child hls (findChild_some hl).1

end Depths

section Openings

variable {KR : Type} {C : Crypto KR} {t : Tree} {w : World} {s s₁ s' : Session KR} {n m : ℕ}

/-- Keyrings are only opened for links up to this depth. -/
structure Opens (t : Tree) (n : ℕ) (s s' : Session KR) : Prop where
  rootID : s'.rootID = s.rootID
  keys : ∀ {id}, (s'.nodeKRs.lookup id).isSome →
    (s.nodeKRs.lookup id).isSome ∨ ∃ m, m ≤ n ∧ AtDepth t m id

theorem opens_of_eq (hr : s'.rootID = s.rootID) (hn : s'.nodeKRs = s.nodeKRs) : Opens t n s s' :=
  ⟨hr, fun hid => .inl (hn ▸ hid)⟩

theorem Opens.trans (h : Opens t n s s₁) (h' : Opens t n s₁ s') : Opens t n s s' :=
  ⟨h'.rootID.trans h.rootID, fun hid => (h'.keys hid).elim h.keys .inr⟩

theorem Opens.mono (h : Opens t n s s') (hnm : n ≤ m) : Opens t m s s' :=
  ⟨h.rootID, fun hid => (h.keys hid).imp_right fun ⟨k, hk, hat⟩ => ⟨k, hk.trans hnm, hat⟩⟩

theorem opens_tick (s : Session KR) : Opens t n s s.tick := opens_of_eq rfl rfl

theorem opens_setNodeKR {id : LinkID} (hat : AtDepth t m id) (hm : m ≤ n) (kr : KR) :
    Opens t n s (s.setNodeKR id kr) := by
  refine ⟨rfl, fun hi => ?_⟩
  simp only [Session.setNodeKR, lookup_insert_ite] at hi
  split_ifs at hi with he
  · exact .inr ⟨m, hm, he ▸ hat⟩
  · exact .inl hi

/-- The step opens keyrings only up to this depth, however it returns. -/
abbrev OpensTo {α : Type} (t : Tree) (n : ℕ) (s : Session KR) (o : Step KR α) : Prop :=
  o.Sat (fun _ => Opens t n s) (fun _ => Opens t n s)

theorem OpensTo.andThen {α β : Type} {o : Step KR α} {f : α → Session KR → Step KR β}
    (h : OpensTo t n s o) (hf : ∀ a s', Opens t n s s' → OpensTo t n s (f a s')) :
    OpensTo t n s (o.andThen f) := Outcome.Sat.andThen h hf

theorem OpensTo.recover {α : Type} {o : Step KR α} {g : GoError → Session KR → Step KR α}
    (h : OpensTo t n s o) (hg : ∀ e s', Opens t n s s' → OpensTo t n s (g e s')) :
    OpensTo t n s (o.recover g) := Outcome.Sat.recover h hg

theorem OpensTo.from {α : Type} {o : Step KR α} (h : OpensTo t n s₁ o) (h₁ : Opens t n s s₁) :
    OpensTo t n s o := h.mono (fun _ _ h' => h₁.trans h') (fun _ _ h' => h₁.trans h')

theorem callAPI_opens {α : Type} (s : Session KR) (answer : Server → Option α) :
    OpensTo t n s (s.callAPI w answer) :=
  (Session.callAPI_answer w s answer).mono (fun _ _ h => h.2 ▸ opens_tick s)
    (fun _ _ h => h.2 ▸ opens_tick s)

theorem shareKeyRing_opens (s : Session KR) : OpensTo t n s (s.shareKeyRing C w) := by
  simp only [Session.shareKeyRing]
  split
  · exact opens_of_eq rfl rfl
  · refine (callAPI_opens s _).andThen fun share s₁ h₁ => ?_
    split
    · exact h₁
    · exact h₁.trans (opens_of_eq rfl rfl)

theorem rootNodeKeyRing_opens (s : Session KR) (hroot : s.rootID = t.rootID) :
    OpensTo t n s (s.rootNodeKeyRing C w) := by
  simp only [Session.rootNodeKeyRing]
  split
  · exact opens_of_eq rfl rfl
  · refine (shareKeyRing_opens s).andThen fun shareKR s₁ h₁ => ?_
    refine ((callAPI_opens s₁ _).from h₁).andThen fun rootLink s₂ h₂ => ?_
    split
    · exact h₂
    · have hat : AtDepth t 0 s₂.rootID := (h₂.rootID.trans hroot) ▸ .root
      exact h₂.trans (opens_setNodeKR hat (Nat.zero_le n) _)

/-- The walk opens one keyring for each component. -/
theorem walkParts_opens (hw : w.Serves t.toServer) (p : Path) (parts : List Path) (id : LinkID)
    (kr : KR) (q : Path) (s : Session KR) (hat : AtDepth t m id) (hn : m + parts.length ≤ n) :
    OpensTo t n s (Session.walkParts C w p parts id kr q s) := by
  induction parts generalizing id kr q s m with
  | nil => exact opens_of_eq rfl rfl
  | cons part parts ih =>
    rw [List.length_cons] at hn
    simp only [Session.walkParts]
    refine Outcome.Sat.andThen ((Session.callAPI_answer w s _).mono (fun _ _ h => h)
      (fun _ _ h => h.2 ▸ opens_tick s)) ?_
    rintro children _ ⟨ha, rfl⟩
    have hlist : Opens t n s (Session.setList w s.tick q children kr) := opens_of_eq rfl rfl
    cases hf : findChild C kr part children with
    | none => exact hlist
    | some child =>
      cases hk : C.getKeyRing child kr with
      | none =>
        simp only [hk]
        exact hlist
      | some childKR =>
        simp only [hk]
        have hchildren : t.children id = some children := by
          simp only [World.answer, hw s.ticks] at ha
          split_ifs at ha
          exact ha
        have hchild := hat.child hchildren (findChild_some hf).1
        have hset := hlist.trans (opens_setNodeKR hchild (by omega) childKR)
        exact (ih child.linkID childKR _ _ hchild (by omega)).from
          (hset.trans (opens_of_eq rfl rfl))

theorem resolvePath_opens (hw : w.Serves t.toServer) (s : Session KR) (hroot : s.rootID = t.rootID)
    (p : Path) : OpensTo t (elements true p).length s (s.resolvePath C w p) := by
  simp only [Session.resolvePath]
  split
  · exact opens_of_eq rfl rfl
  · have h₀ : Opens t (elements true p).length s (s.setLinkPath s.rootID ['/']) :=
      opens_of_eq rfl rfl
    refine ((rootNodeKeyRing_opens (s.setLinkPath s.rootID ['/']) hroot).from h₀).andThen
      fun kr s₁ h₁ => ?_
    have hlen : 0 + (splitPath (absolute p)).length ≤ (elements true p).length := by
      rw [splitPath_eq, elements_absolute, Nat.zero_add]
    have hat : AtDepth t 0 s₁.rootID := (h₁.rootID.trans hroot) ▸ .root
    exact (walkParts_opens hw _ _ s₁.rootID kr _ _ hat hlen).from
      (h₁.trans (opens_of_eq rfl rfl))

theorem listChildren_opens (hw : w.Serves t.toServer) (s : Session KR)
    (hroot : s.rootID = t.rootID) (p : Path) :
    OpensTo t (elements true p).length s (s.listChildren C w p) := by
  simp only [Session.listChildren]
  split
  · exact opens_tick s
  · refine OpensTo.recover ?_ fun e s₁ h₁ => ?_
    · refine ((resolvePath_opens hw s.tick hroot p).from (opens_tick s)).andThen
        fun node s₁ h₁ => ?_
      refine ((callAPI_opens s₁ _).from h₁).andThen fun links s₂ h₂ => ?_
      exact h₂.trans (opens_of_eq rfl rfl)
    · simp only [Session.staleList]
      split
      · exact h₁
      · exact h₁

theorem parentKRFor_opens (hw : w.Serves t.toServer) (s : Session KR) (hroot : s.rootID = t.rootID)
    (p : Path) : OpensTo t (elements true (dir (absolute p))).length s (s.parentKRFor C w p) :=
  (resolvePath_opens hw s hroot _).andThen fun _ _ h => h

/-- A stat opens keyrings down to the directory of the path, not that of the path itself. -/
theorem stat_opens (hw : w.Serves t.toServer) (s : Session KR) (hroot : s.rootID = t.rootID)
    (p : Path) : OpensTo t (elements true (dir (absolute p))).length s (s.stat C w p) := by
  simp only [Session.stat]
  split
  · exact opens_tick s
  · refine OpensTo.recover ?_ fun e s₁ h₁ => ?_
    · refine OpensTo.andThen (OpensTo.from ?_ (opens_tick s)) fun r s₁ h₁ =>
        h₁.trans (opens_of_eq rfl rfl)
      simp only [Session.statUncached]
      split_ifs
      · refine (callAPI_opens s.tick _).andThen fun link s₁ h₁ => ?_
        refine ((rootNodeKeyRing_opens s₁ (h₁.rootID.trans hroot)).from h₁).andThen
          fun kr s₂ h₂ => h₂
      · have hparent := parentKRFor_opens (C := C) hw s.tick hroot (absolute p)
        rw [absolute_absolute] at hparent
        refine hparent.andThen fun parentKR s₁ h₁ => ?_
        refine ((listChildren_opens hw s₁ (h₁.rootID.trans hroot) _).from h₁).andThen
          fun r s₂ h₂ => ?_
        split
        · exact h₂
        · exact h₂
    · simp only [Session.staleStat]
      split
      · exact h₁
      · exact h₁

end Openings

section Roots

variable {KR : Type} {C : Crypto KR} {w : World} {s s₁ s' : Session KR}

/-- The keyring of the root is cached. -/
def RootOpen (s : Session KR) : Prop := (s.nodeKRs.lookup s.rootID).isSome

theorem RootOpen.leaves {on : Path → Prop} (h : RootOpen s) (hl : Leaves C w on s s') :
    RootOpen s' := by
  rw [RootOpen, hl.rootID]
  exact hl.keys h

/-- The step succeeds only with the root open. -/
abbrev Rooted {α : Type} (o : Step KR α) : Prop := o.Sat (fun _ => RootOpen) (fun _ _ => True)

theorem Rooted.andThen {α β : Type} {o : Step KR α} {f : α → Session KR → Step KR β}
    (h : Rooted o) (hf : ∀ a s, RootOpen s → Rooted (f a s)) : Rooted (o.andThen f) :=
  Outcome.Sat.andThen h hf

theorem rooted_leaves {α : Type} {on : Path → Prop} {o : Step KR α} (hs : RootOpen s)
    (h : o.Sat (fun _ => Leaves C w on s) (fun _ => Leaves C w on s)) : Rooted o :=
  h.mono (fun _ _ hl => hs.leaves hl) (fun _ _ _ => trivial)

theorem rootNodeKeyRing_root (s : Session KR) : Rooted (s.rootNodeKeyRing C w) :=
  (@rootNodeKeyRing_leaves KR C w (fun _ => True) s).mono
    (fun _ _ h => Option.isSome_of_eq_some h.2) (fun _ _ _ => trivial)

theorem resolvePath_root (hk : Keyed C s) (p : Path) : Rooted (s.resolvePath C w p) := by
  simp only [Session.resolvePath]
  cases hr : s.resolved (absolute p) with
  | some n =>
    simp only [Session.resolved, Option.bind_eq_some_iff, Option.map_eq_some_iff] at hr
    obtain ⟨id, -, kr, hkr, -⟩ := hr
    exact hk.root hkr
  | none =>
    refine (rootNodeKeyRing_root (s.setLinkPath s.rootID ['/'])).andThen fun kr s₁ h₁ => ?_
    have hroot : RootOpen (s₁.setPathLink ['/'] s₁.rootID) := h₁
    have hsplit : splitPath (absolute p) = elements true p := by
      rw [splitPath_eq, elements_absolute]
    exact rooted_leaves hroot (walkParts_leaves (C := C) (w := w) (absolute p)
      (splitPath (absolute p)) [] s₁.rootID kr (by simp) (hsplit ▸ elements_components p) _ hroot)

theorem statUncached_root (hk : Keyed C s) (p : Path) : Rooted (s.statUncached C w p) := by
  simp only [Session.statUncached]
  split_ifs
  · refine Outcome.Sat.andThen ((Session.callAPI_answer w s _).mono (fun _ _ _ => trivial)
      (fun _ _ _ => trivial)) fun link s₁ (_ : True) => ?_
    exact (rootNodeKeyRing_root s₁).andThen fun kr s₂ h₂ => h₂
  · have hparent : Rooted (s.parentKRFor C w p) :=
      (resolvePath_root hk _).andThen fun node s₁ h₁ => h₁
    refine hparent.andThen fun parentKR s₁ h₁ => ?_
    refine (rooted_leaves h₁ (listChildren_leaves (C := C) (w := w) s₁ (dir p))).andThen
      fun r s₂ h₂ => ?_
    split
    · exact h₂
    · exact trivial

/-- No stat is cached before the root is open. -/
def StatsRooted (s : Session KR) : Prop :=
  ∀ p, (s.metaCache.stats.lookup p).isSome → RootOpen s

theorem isSome_getStatStale {p : Path} {r : Link × KR} (h : s.metaCache.getStatStale p = some r) :
    (s.metaCache.stats.lookup p).isSome := by
  obtain ⟨e, he, -⟩ := Option.map_eq_some_iff.mp h
  exact Option.isSome_of_eq_some he

/-- Who has a stat has opened the root. -/
theorem stat_root (hk : Keyed C s) (hs : StatsRooted s) (p : Path) : Rooted (s.stat C w p) := by
  have hk' : Keyed C s.tick := ⟨hk.root, hk.node, hk.path⟩
  simp only [Session.stat]
  cases hc : s.metaCache.getStat (w.now s.ticks) (absolute p) with
  | some r => exact hs _ (isSome_getStatStale (MetaCache.Cache.getStat_stale hc))
  | none =>
    have hroot := statUncached_root (w := w) hk' (absolute p)
    have hleaves := statUncached_leaves (C := C) (w := w) s.tick (absolute_absolute p)
    rcases hrun : s.tick.statUncached C w (absolute p) with ⟨e | r, s₁⟩
    · rw [hrun] at hleaves
      have hleft : Leaves C w (StatWay (absolute p)) s.tick s₁ := hleaves
      rw [Outcome.andThen_error, Outcome.recover_error]
      simp only [Session.staleStat]
      split
      · rename_i r _ hst
        have hold := isSome_getStatStale hst
        rw [hleft.stats] at hold
        have hopen : RootOpen s.tick := hs _ hold
        exact hopen.leaves hleft
      · exact trivial
    · rw [hrun] at hroot
      exact hroot

/-- A step adds no stat unless the root is open. -/
structure Climbs (s s' : Session KR) : Prop where
  opens : RootOpen s → RootOpen s'
  stats : ∀ p, (s'.metaCache.stats.lookup p).isSome →
    (s.metaCache.stats.lookup p).isSome ∨ RootOpen s'

theorem Climbs.statsRooted (h : Climbs s s') (hs : StatsRooted s) : StatsRooted s' :=
  fun p hp => (h.stats p hp).elim (fun hp => h.opens (hs p hp)) id

theorem Climbs.trans (h : Climbs s s₁) (h' : Climbs s₁ s') : Climbs s s' :=
  ⟨fun hr => h'.opens (h.opens hr), fun p hp => (h'.stats p hp).elim
    (fun hp => (h.stats p hp).imp_right h'.opens) .inr⟩

theorem climbs_leaves {on : Path → Prop} (h : Leaves C w on s s') : Climbs s s' :=
  ⟨fun hr => hr.leaves h, fun _ hp => .inl (h.stats ▸ hp)⟩

theorem climbs_pruned (h : Pruned s s') : Climbs s s' := by
  refine ⟨fun hr => ?_, fun p hp => .inl ?_⟩
  · rw [RootOpen, h.rootID, h.nodeKRs]
    exact hr
  · obtain ⟨e, he⟩ := Option.isSome_iff_exists.mp hp
    exact Option.isSome_of_eq_some (h.metaCache.stats p e he)

theorem climbs_kept (h : Kept s s') : Climbs s s' := by
  refine ⟨fun hr => ?_, fun p hp => .inl (h.stats ▸ hp)⟩
  rw [RootOpen, h.rootID, h.nodeKRs]
  exact hr

theorem stat_climbs (hk : Keyed C s) (hs : StatsRooted s) (p : Path) :
    Climbs s (s.stat C w p).state := by
  have hroot := stat_root (w := w) hk hs p
  have hleaves := stat_leaves (C := C) (w := w) s p
  rcases hrun : s.stat C w p with ⟨e | r, s'⟩
  · rw [hrun] at hleaves
    exact climbs_leaves hleaves
  · rw [hrun] at hroot
    exact ⟨fun _ => hroot, fun _ _ => .inr hroot⟩

theorem exec_climbs (hk : Keyed C s) (hs : StatsRooted s) (c : Call) :
    Climbs s (DriveSession.exec C w s c).state := by
  cases c with
  | resolvePath p =>
    rw [DriveSession.exec, Outcome.state_andThen_ok]
    exact climbs_leaves (resolvePath_leaves (w := w) s p).state
  | listChildren p =>
    rw [DriveSession.exec, Outcome.state_andThen_ok]
    exact climbs_leaves (listChildren_leaves (w := w) s p).state
  | stat p =>
    rw [DriveSession.exec, Outcome.state_andThen_ok]
    exact stat_climbs hk hs p
  | invalidatePath p => exact climbs_pruned (pruned_invalidatePath s p)
  | invalidateLinkID id => exact climbs_pruned (pruned_invalidateLinkID s id)
  | invalidateAll => exact climbs_pruned ⟨rfl, rfl, s.metaCache.invalidateAll_below⟩

theorem climbs_onlyBlocks (h : OnlyBlocks s s') : Climbs s s' := by
  rw [h]
  exact climbs_pruned ⟨rfl, rfl, .refl _⟩

theorem climbs_stable (s : Session KR) : Stable C w (Climbs s) where
  leaves hl h := h.trans (climbs_leaves hl)
  onlyBlocks hb h := h.trans (climbs_onlyBlocks hb)
  dropMeta d h := h.trans (climbs_pruned ⟨rfl, rfl, MetaCache.Cache.invalidatePath_below _ d⟩)

theorem readFile_climbs (hk : Keyed C s) (hs : StatsRooted s) (path : Path) (offset length : ℤ) :
    Climbs s (FileReads.readFile C w path offset length s).state :=
  (climbs_stable s).readFile (stat_climbs hk hs path)

variable {sealFolder : Link → KR → Path → Option String} {rootID : LinkID}

theorem makeDir_climbs (hk : Keyed C s) (hs : StatsRooted s) (p : Path) :
    Climbs s (makeDir C sealFolder w s p).state :=
  (climbs_stable s).makeDir (stat_climbs hk hs (dir p))

theorem delete_climbs (hk : Keyed C s) (hs : StatsRooted s) (p : Path) (trash : Bool) :
    Climbs s (delete C w s p trash).state := (climbs_stable s).delete (stat_climbs hk hs p)

theorem handle_climbs {le : LinkEvent} {o : Attempt KR} (ho : handle C w le s = some o) :
    Climbs s o.state := by
  obtain ⟨s₁, hpruned, hkept⟩ := handle_pruned ho
  exact (climbs_pruned hpruned).trans (climbs_kept hkept)

theorem statsRooted_reachable (h : Reachable C sealFolder rootID s) : StatsRooted s := by
  induction h with
  | start blocks => exact fun _ hp => nomatch hp
  | call w c h ih => exact (exec_climbs h.keyed.2 ih c).statsRooted ih
  | readFile w path offset length h ih =>
    exact (readFile_climbs h.keyed.2 ih path offset length).statsRooted ih
  | makeDir w p h ih => exact (makeDir_climbs h.keyed.2 ih p).statsRooted ih
  | delete w p trash h ih => exact (delete_climbs h.keyed.2 ih p trash).statsRooted ih
  | event w le o h ho ih => exact (handle_climbs ho).statsRooted ih

end Roots

section Supplies

variable {KR : Type} {C : Crypto KR} {sealFolder : Link → KR → Path → Option String} {t : Tree}
  {w : World} {s s' : Session KR} {p : Path} {l : Link} {k kr : KR}

/-- `MakeDir` fails for want of a keyring exactly when the stat of the parent leaves none. -/
theorem makeDir_notCached_iff {q : Path} (h : s.stat C w (dir q) = ⟨.ok (l, kr), s'⟩) :
    (makeDir C sealFolder w s q).result = .error (.keyringNotCached l.linkID) ↔
      s'.nodeKRs.lookup l.linkID = none := by
  simp only [makeDir, createFolderReq, h, reading, Outcome.andThen_ok, nodeKeyRing]
  cases hk : s'.nodeKRs.lookup l.linkID with
  | none => exact iff_of_true rfl rfl
  | some parentKR =>
    refine iff_of_false ?_ (Option.some_ne_none parentKR)
    rw [Outcome.andThen_ok]
    cases sealFolder l parentKR (base q) with
    | none => simp
    | some x =>
      simp only [Outcome.andThen_ok, createFolder]
      split <;> simp

theorem stat_keys {r : Link × KR} (h : s.stat C w p = ⟨.ok r, s'⟩) :
    s'.rootID = s.rootID ∧
      ∀ id, (s.nodeKRs.lookup id).isSome → (s'.nodeKRs.lookup id).isSome := by
  have hleaves := stat_leaves (C := C) (w := w) s p
  rw [h] at hleaves
  obtain ⟨s₁, hl, ⟨rfl, -⟩ | rfl⟩ := hleaves
  · exact ⟨hl.rootID, fun _ => hl.keys⟩
  · exact ⟨hl.rootID, fun _ => hl.keys⟩

/-- When `Stat` returns the folder that the server has at the path, its keyring is cached, and
`MakeDir` finds it, exactly when the folder is the root or the keyring was cached before. -/
theorem stat_supplies_iff (hs : Reachable C sealFolder t.rootID s) (hw : w.Serves t.toServer)
    (ht : t.statOf C p = some (l, k)) (hstat : s.stat C w p = ⟨.ok (l, kr), s'⟩) :
    ((s'.nodeKRs.lookup l.linkID).isSome ↔
      l.linkID = t.rootID ∨ (s.nodeKRs.lookup l.linkID).isSome) ∧
    ∀ q, dir q = p → ((makeDir C sealFolder w s q).result =
        .error (.keyringNotCached l.linkID) ↔
      ¬ (l.linkID = t.rootID ∨ (s.nodeKRs.lookup l.linkID).isSome)) := by
  obtain ⟨hroot, hkeyed⟩ := hs.keyed
  obtain ⟨hroot', hkeys⟩ := stat_keys hstat
  have hiff : (s'.nodeKRs.lookup l.linkID).isSome ↔
      l.linkID = t.rootID ∨ (s.nodeKRs.lookup l.linkID).isSome := by
    constructor
    · intro hafter
      have hopens := stat_opens (C := C) hw s hroot p
      rw [hstat] at hopens
      rcases Opens.keys hopens hafter with hbefore | ⟨m, hm, hat⟩
      · exact .inr hbefore
      · by_cases hp : absolute p = ['/']
        · have hzero : m = 0 := Nat.eq_zero_of_le_zero (by rwa [hp] at hm)
          generalize l.linkID = id at hat ⊢
          cases hat with
          | root => exact .inl rfl
          | child => cases hzero
        · have hdepth := hat.unique (atDepth_statOf hp ht)
          omega
    · rintro (hid | hbefore)
      · have hopen := stat_root (w := w) hkeyed (statsRooted_reachable hs) p
        rw [hstat] at hopen
        have hkr : (s'.nodeKRs.lookup s'.rootID).isSome := hopen
        rwa [hid, ← hroot, ← hroot']
      · exact hkeys _ hbefore
  refine ⟨hiff, ?_⟩
  rintro q rfl
  rw [makeDir_notCached_iff hstat, ← hiff, Option.not_isSome_iff_eq_none]

/-- A session in which the folder has been listed. -/
def listed : Session Unit :=
  (DriveSession.exec Crypto.plain (World.steady oneFolder.toServer) (newSession "root" none)
    (.listChildren "/a".toList)).state

/-- There its stat supplies the keyring. -/
theorem stat_supplies_listed :
    (makeDir Crypto.plain (fun _ _ _ => some "") (World.steady oneFolder.toServer) listed
      "/a/b".toList).result ≠ .error (.keyringNotCached "A") := by
  have hs : Reachable Crypto.plain (fun _ _ _ => some "") oneFolder.rootID listed :=
    .call _ _ (.start none)
  have hstat : ∃ s', listed.stat Crypto.plain (World.steady oneFolder.toServer) "/a".toList =
      ⟨.ok (plainFolder "A" "root" "a", ()), s'⟩ := ⟨_, rfl⟩
  obtain ⟨s', hstat⟩ := hstat
  have ht : oneFolder.statOf Crypto.plain "/a".toList = some (plainFolder "A" "root" "a", ()) := rfl
  have hmake := (stat_supplies_iff hs (fun _ => rfl) ht hstat).2 "/a/b".toList rfl
  exact fun h => hmake.mp h (.inr rfl)

/-- In a fresh session the stat of a folder leaves no keyring for it. -/
theorem stat_supplies_fails :
    ∃ s' : Session Unit,
      oneFolder.statOf Crypto.plain "/a".toList = some (plainFolder "A" "root" "a", ()) ∧
      (newSession "root" none).stat Crypto.plain (World.steady oneFolder.toServer) "/a".toList =
        ⟨.ok (plainFolder "A" "root" "a", ()), s'⟩ ∧
      s'.nodeKRs.lookup "A" = none ∧
      (makeDir Crypto.plain (fun _ _ _ => some "") (World.steady oneFolder.toServer)
        (newSession "root" none) "/a/b".toList).result = .error (.keyringNotCached "A") :=
  ⟨_, rfl, rfl, rfl, rfl⟩

end Supplies

end ProtonDrive.FolderKeyrings
