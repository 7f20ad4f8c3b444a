import ProtonDrive.EventPoller

/-!
# The path maps

`linkPaths` records where a link was last seen, `pathLinks` registers which link a path was
resolved to. Every step is described by the bindings it writes into the two maps. The maps
stay inverse to each other as long as no step records a link at a new path while an old path
of the link stays registered.
-/

namespace ProtonDrive.PathMaps
open SlashPaths KeyedMaps FallibleSteps DriveApi DriveSession EventPoller

variable {KR : Type} {C : Crypto KR} {w : World} {s s₁ s₂ s' : Session KR}

/-- A registered path is the recorded path of its link. -/
def Inverse (s : Session KR) : Prop :=
  ∀ p id, s.pathLinks.lookup p = some id → s.linkPaths.lookup id = some p

section Bindings

/-- The bindings of a step: links recorded at paths, and those registered as well. -/
structure Writes where
  recorded : List (LinkID × Path)
  registered : List (LinkID × Path)

def Writes.none : Writes := ⟨[], []⟩

/-- What a step made of the two maps; `left` is what the invalidations left registered. -/
structure Wrote (links : KeyMap LinkID Path) (left : KeyMap Path LinkID) (wr : Writes)
    (s' : Session KR) : Prop where
  kept : ∀ id, id ∉ wr.recorded.map Prod.fst → s'.linkPaths.lookup id = links.lookup id
  bound : ∀ id ∈ wr.recorded.map Prod.fst,
    ∃ p, (id, p) ∈ wr.recorded ∧ s'.linkPaths.lookup id = some p
  paths : ∀ p id, s'.pathLinks.lookup p = some id →
    (id, p) ∈ wr.registered ∨ (left.lookup p = some id ∧ p ∉ wr.registered.map Prod.snd)

/-- No link is recorded at two paths, and a link that is recorded has no other path that
stays registered. -/
structure Settled (left : KeyMap Path LinkID) (wr : Writes) : Prop where
  agree : ∀ {id p q}, (id, p) ∈ wr.recorded → (id, q) ∈ wr.recorded → p = q
  fresh : ∀ {id p q}, (id, p) ∈ wr.recorded → left.lookup q = some id →
    q = p ∨ q ∈ wr.registered.map Prod.snd

theorem Wrote.inverse {left : KeyMap Path LinkID} {wr : Writes} (h : Inverse s)
    (hleft : ∀ p id, left.lookup p = some id → s.pathLinks.lookup p = some id)
    (hsub : ∀ b ∈ wr.registered, b ∈ wr.recorded) (hwr : Wrote s.linkPaths left wr s')
    (hset : Settled left wr) : Inverse s' := by
  intro p id hp
  have hrec : (id, p) ∈ wr.recorded → s'.linkPaths.lookup id = some p := by
    intro hm
    obtain ⟨q, hq, hlook⟩ := hwr.bound id (List.mem_map_of_mem hm)
    rw [hlook, hset.agree hq hm]
  rcases hwr.paths p id hp with hreg | ⟨hold, hnot⟩
  · exact hrec (hsub _ hreg)
  · by_cases hid : id ∈ wr.recorded.map Prod.fst
    · obtain ⟨⟨_, q⟩, hq, rfl⟩ := List.mem_map.mp hid
      cases (hset.fresh hq hold).resolve_right hnot
      exact hrec hq
    · rw [hwr.kept id hid]
      exact h p id (hleft p id hold)

/-- A recorded path was written by the step or recorded before it. -/
theorem Wrote.recorded {left : KeyMap Path LinkID} {wr : Writes}
    (hwr : Wrote s.linkPaths left wr s') {id : LinkID} {p : Path}
    (h : s'.linkPaths.lookup id = some p) :
    (id, p) ∈ wr.recorded ∨ s.linkPaths.lookup id = some p := by
  by_cases hid : id ∈ wr.recorded.map Prod.fst
  · obtain ⟨q, hq, hlook⟩ := hwr.bound id hid
    cases hlook.symm.trans h
    exact .inl hq
  · exact .inr (hwr.kept id hid ▸ h)

/-- A step that leaves the recorded paths alone and registers nothing. -/
theorem wrote_none (hl : s'.linkPaths = s.linkPaths)
    (hp : ∀ p id, s'.pathLinks.lookup p = some id → s.pathLinks.lookup p = some id) :
    Wrote s.linkPaths s.pathLinks .none s' :=
  ⟨fun _ _ => by rw [hl], nofun, fun p id h => .inr ⟨hp p id h, List.not_mem_nil⟩⟩

/-- Bindings written into both maps, one part after the other. -/
theorem Wrote.append {left : KeyMap Path LinkID} {bs cs : List (LinkID × Path)}
    (h : Wrote s.linkPaths left ⟨bs, bs⟩ s₁)
    (h' : Wrote s₁.linkPaths s₁.pathLinks ⟨cs, cs⟩ s') :
    Wrote s.linkPaths left ⟨bs ++ cs, bs ++ cs⟩ s' := by
  constructor
  · intro id hid
    simp only [List.map_append, List.mem_append, not_or] at hid
    rw [h'.kept id hid.2, h.kept id hid.1]
  · intro id hid
    by_cases hc : id ∈ cs.map Prod.fst
    · obtain ⟨p, hp, hlook⟩ := h'.bound id hc
      exact ⟨p, List.mem_append_right bs hp, hlook⟩
    · have hb : id ∈ bs.map Prod.fst := by simpa [hc] using hid
      obtain ⟨p, hp, hlook⟩ := h.bound id hb
      exact ⟨p, List.mem_append_left cs hp, (h'.kept id hc).trans hlook⟩
  · intro p id hp
    rcases h'.paths p id hp with hreg | ⟨hold, hnot⟩
    · exact .inl (List.mem_append_right bs hreg)
    rcases h.paths p id hold with hreg | ⟨hold, hnot'⟩
    · exact .inl (List.mem_append_left cs hreg)
    · refine .inr ⟨hold, ?_⟩
      simp only [List.map_append, List.mem_append, not_or]
      exact ⟨hnot', hnot⟩

/-- One binding written into both maps. -/
theorem wrote_binding (id : LinkID) (p : Path) (hl : s'.linkPaths = s.linkPaths.insert id p)
    (hp : s'.pathLinks = s.pathLinks.insert p id) :
    Wrote s.linkPaths s.pathLinks ⟨[(id, p)], [(id, p)]⟩ s' := by
  constructor
  · intro i hi
    have hne : i ≠ id := by simpa using hi
    rw [hl, lookup_insert_ite, if_neg hne]
  · intro i hi
    have hi : i = id := by simpa using hi
    exact ⟨p, by simp [hi], by rw [hl, lookup_insert_ite, if_pos hi]⟩
  · intro q i hq
    rw [hp, lookup_insert_ite] at hq
    split_ifs at hq with hqp
    · cases hq
      exact .inl (by simp [hqp])
    · exact .inr ⟨hq, by simpa using hqp⟩

/-- Bindings written only into the recorded paths, in order. -/
theorem wrote_recorded {bs : List (LinkID × Path)}
    (hl : s'.linkPaths = bs.foldl (fun m b => m.insert b.1 b.2) s.linkPaths)
    (hp : s'.pathLinks = s.pathLinks) :
    Wrote s.linkPaths s.pathLinks ⟨bs, []⟩ s' := by
  constructor
  · intro id hid
    rw [hl, lookup_foldl_insert, List.find?_eq_none.mpr]
    · rfl
    · intro b hb hbi
      have hbi : b.1 = id := by simpa using hbi
      exact hid (hbi ▸ List.mem_map_of_mem (List.mem_reverse.mp hb))
  · intro id hid
    obtain ⟨b, hb, rfl⟩ := List.mem_map.mp hid
    cases hf : bs.reverse.find? (fun c => decide (c.1 = b.1)) with
    | none =>
      have hnone := List.find?_eq_none.mp hf b (List.mem_reverse.mpr hb)
      simp at hnone
    | some c =>
      have hc : c.1 = b.1 := by simpa using List.find?_some hf
      refine ⟨c.2, hc ▸ List.mem_reverse.mp (List.mem_of_find?_eq_some hf), ?_⟩
      rw [hl, lookup_foldl_insert, hf]
      rfl
  · intro p id h
    exact .inr ⟨hp ▸ h, List.not_mem_nil⟩

end Bindings

section Walks

/-- The bindings of the loop of `resolvePath`, as far as it gets. -/
def walkBindings (C : Crypto KR) (w : World) :
    List Path → LinkID → KR → Path → ℕ → List (LinkID × Path)
  | [], _, _, _, _ => []
  | part :: parts, linkID, kr, currentPath, tick =>
    match (w.answer tick (fun srv => srv.children linkID)).bind (findChild C kr part) with
    | none => []
    | some child => match C.getKeyRing child kr with
      | none => []
      | some childKR => (child.linkID, extendPath currentPath part) ::
        walkBindings C w parts child.linkID childKR (extendPath currentPath part) (tick + 2)

/-- The bindings of `resolvePath`: none on the fast path, only the root's record when the
root cannot be opened. -/
def resolveWrites (C : Crypto KR) (w : World) (s : Session KR) (p : Path) : Writes :=
  match s.resolved (absolute p) with
  | some _ => .none
  | none => match (s.setLinkPath s.rootID ['/']).rootNodeKeyRing C w with
    | ⟨.error _, _⟩ => ⟨[(s.rootID, ['/'])], []⟩
    | ⟨.ok kr, s₁⟩ =>
      let bs := (s.rootID, ['/']) ::
        walkBindings C w (splitPath (absolute p)) s₁.rootID kr ['/'] s₁.ticks
      ⟨bs, bs⟩

theorem walkParts_wrote (p : Path) (parts : List Path) (id : LinkID) (kr : KR) (q : Path)
    (s : Session KR) :
    Wrote s.linkPaths s.pathLinks
      ⟨walkBindings C w parts id kr q s.ticks, walkBindings C w parts id kr q s.ticks⟩
      (Session.walkParts C w p parts id kr q s).state := by
  induction parts generalizing id kr q s with
  | nil => exact wrote_none rfl fun _ _ h => h
  | cons part parts ih =>
    simp only [Session.walkParts, walkBindings]
    have hcall := Session.callAPI_answer w s (fun srv => srv.children id)
    rcases hrun : s.callAPI w (fun srv => srv.children id) with ⟨e | children, s₁⟩
    · rw [hrun] at hcall
      obtain ⟨ha, rfl⟩ := hcall
      rw [ha]
      exact wrote_none rfl fun _ _ h => h
    rw [hrun] at hcall
    obtain ⟨ha, rfl⟩ := hcall
    rw [ha, Outcome.andThen_ok, Option.bind_some]
    cases hf : findChild C kr part children with
    | none => exact wrote_none rfl fun _ _ h => h
    | some child =>
      cases hk : C.getKeyRing child kr with
      | none =>
        simp only [hk]
        exact wrote_none rfl fun _ _ h => h
      | some childKR =>
        simp only [hk]
        have hfirst : Wrote s.linkPaths s.pathLinks ⟨[(child.linkID, extendPath q part)],
            [(child.linkID, extendPath q part)]⟩
            ((((Session.setList w s.tick q children kr).setNodeKR child.linkID childKR).setLinkPath
              child.linkID (extendPath q part)).setPathLink (extendPath q part) child.linkID) :=
          wrote_binding _ _ rfl rfl
        exact hfirst.append (ih child.linkID childKR (extendPath q part) _)

/-- Opening the root leaves the path maps alone and stores the root's keyring. -/
theorem rootNodeKeyRing_maps (s : Session KR) :
    (s.rootNodeKeyRing C w).Sat
      (fun kr s' => s'.linkPaths = s.linkPaths ∧ s'.pathLinks = s.pathLinks ∧
        s'.rootID = s.rootID ∧ s'.nodeKRs.lookup s'.rootID = some kr)
      (fun _ s' => s'.linkPaths = s.linkPaths ∧ s'.pathLinks = s.pathLinks) := by
  simp only [Session.rootNodeKeyRing]
  cases hn : s.nodeKRs.lookup s.rootID with
  | some kr => exact ⟨rfl, rfl, rfl, hn⟩
  | none =>
    have hshare : (s.shareKeyRing C w).Sat
        (fun _ s' => s'.linkPaths = s.linkPaths ∧ s'.pathLinks = s.pathLinks ∧
          s'.rootID = s.rootID)
        (fun _ s' => s'.linkPaths = s.linkPaths ∧ s'.pathLinks = s.pathLinks) := by
      simp only [Session.shareKeyRing]
      cases s.shareKR with
      | some kr => exact ⟨rfl, rfl, rfl⟩
      | none =>
        refine ((Session.callAPI_answer w s _).mono (fun _ _ h => h.2)
          (fun _ _ h => by rw [h.2]; exact ⟨rfl, rfl⟩)).andThen ?_
        rintro share _ rfl
        split
        · exact ⟨rfl, rfl⟩
        · exact ⟨rfl, rfl, rfl⟩
    apply hshare.andThen
    rintro shareKR s₁ ⟨hl, hp, hr⟩
    refine ((Session.callAPI_answer w s₁ _).mono (fun _ _ h => h.2)
      (fun _ _ h => by rw [h.2]; exact ⟨hl, hp⟩)).andThen ?_
    rintro rootLink _ rfl
    split
    · exact ⟨hl, hp⟩
    · refine ⟨hl, hp, hr, ?_⟩
      simp [Session.setNodeKR, Session.tick]

theorem resolvePath_wrote (s : Session KR) (p : Path) :
    Wrote s.linkPaths s.pathLinks (resolveWrites C w s p) (s.resolvePath C w p).state := by
  simp only [Session.resolvePath, resolveWrites]
  cases s.resolved (absolute p) with
  | some n => exact wrote_none rfl fun _ _ h => h
  | none =>
    have hroot := rootNodeKeyRing_maps (C := C) (w := w) (s.setLinkPath s.rootID ['/'])
    rcases hrun : (s.setLinkPath s.rootID ['/']).rootNodeKeyRing C w with ⟨e | kr, s₁⟩
    · rw [hrun] at hroot
      exact wrote_recorded hroot.1 hroot.2
    · rw [hrun] at hroot
      obtain ⟨hl, hp, hr, -⟩ := hroot
      have hfirst : Wrote s.linkPaths s.pathLinks ⟨[(s.rootID, ['/'])], [(s.rootID, ['/'])]⟩
          (s₁.setPathLink ['/'] s₁.rootID) := by
        refine wrote_binding _ _ hl ?_
        rw [Session.setPathLink, hp, hr]
        rfl
      exact hfirst.append (walkParts_wrote ..)

/-- After a walk the path it ends at is resolved by the fast path. -/
theorem walkParts_resolved (p : Path) (parts : List Path) (id : LinkID) (kr : KR) (q : Path)
    (hq : s.resolved q = some (id, kr)) :
    (Session.walkParts C w p parts id kr q s).Sat
      (fun n s' => s'.resolved (parts.foldl extendPath q) = some n) (fun _ _ => True) := by
  induction parts generalizing id kr q s with
  | nil => exact hq
  | cons part parts ih =>
    unfold Session.walkParts
    apply ((Session.callAPI_answer w s _).mono (fun _ _ h => h) (fun _ _ _ => trivial)).andThen
    rintro children s₁ -
    dsimp only
    cases findChild C kr part children with
    | none => exact trivial
    | some child =>
      cases hk : C.getKeyRing child kr with
      | none =>
        simp only [hk]
        exact trivial
      | some childKR =>
        simp only [hk]
        apply ih _ _ _
        simp [Session.resolved, Session.setPathLink, Session.setLinkPath, Session.setNodeKR]

theorem foldl_extendPath {es parts : List Path} (he : ∀ e ∈ es, IsComponent e)
    (hp : ∀ e ∈ parts, IsComponent e) :
    parts.foldl extendPath (render es) = render (es ++ parts) := by
  induction parts generalizing es with
  | nil => simp
  | cons part parts ih =>
    rw [List.foldl_cons, extendPath_render he, ih]
    · simp
    · intro e hm
      rcases List.mem_append.mp hm with hm | hm
      · exact he e hm
      · exact hp e (by simp [List.mem_singleton.mp hm])
    · exact fun e hm => hp e (List.mem_cons_of_mem _ hm)

theorem foldl_splitPath (p : Path) : (splitPath p).foldl extendPath ['/'] = absolute p := by
  rw [splitPath_eq, absolute_eq_render]
  exact foldl_extendPath (show ∀ e ∈ ([] : List Path), IsComponent e by simp)
    (elements_components p)

/-- A path that has been resolved is resolved by the fast path from then on. -/
theorem resolvePath_resolved (s : Session KR) (p : Path) :
    (s.resolvePath C w p).Sat (fun n s' => s'.resolved (absolute p) = some n)
      (fun _ _ => True) := by
  simp only [Session.resolvePath]
  cases hs : s.resolved (absolute p) with
  | some n => exact hs
  | none =>
    apply ((rootNodeKeyRing_maps _).mono (fun _ _ h => h) (fun _ _ _ => trivial)).andThen
    rintro kr s₁ ⟨-, -, -, hk⟩
    have hroot : (s₁.setPathLink ['/'] s₁.rootID).resolved ['/'] = some (s₁.rootID, kr) := by
      simp [Session.resolved, Session.setPathLink, hk]
    have hwalk := walkParts_resolved (C := C) (w := w) (absolute p) (splitPath (absolute p))
      s₁.rootID kr ['/'] hroot
    rw [foldl_splitPath, absolute_absolute] at hwalk
    exact hwalk

end Walks

section Calls

/-- The bindings of a call; a stat resolves the directory of its path, and the listing it
makes then finds that directory resolved. -/
def callWrites (C : Crypto KR) (w : World) (s : Session KR) : Call → Writes
  | .resolvePath p => resolveWrites C w s p
  | .listChildren p =>
    if (s.metaCache.getList (w.now s.ticks) p).isSome then .none else resolveWrites C w s.tick p
  | .stat p =>
    if (s.metaCache.getStat (w.now s.ticks) (absolute p)).isSome ∨ absolute p = ['/'] then .none
    else resolveWrites C w s.tick (dir (absolute p))
  | .invalidatePath _ | .invalidateLinkID _ | .invalidateAll => .none

/-- The maps are those of another session. -/
def SameMaps (s s' : Session KR) : Prop :=
  s'.linkPaths = s.linkPaths ∧ s'.pathLinks = s.pathLinks

theorem Wrote.congr {links : KeyMap LinkID Path} {left : KeyMap Path LinkID} {wr : Writes}
    (h : Wrote links left wr s₁) (hs : SameMaps s₁ s') : Wrote links left wr s' :=
  ⟨fun id hid => hs.1 ▸ h.kept id hid, fun id hid => hs.1 ▸ h.bound id hid,
    fun p id hp => h.paths p id (hs.2 ▸ hp)⟩

/-- Listing a directory changes the maps as resolving it does. -/
theorem listChildren_maps (s : Session KR) (p : Path) :
    SameMaps (if (s.metaCache.getList (w.now s.ticks) p).isSome then s
      else (s.tick.resolvePath C w p).state) (s.listChildren C w p).state := by
  simp only [Session.listChildren]
  cases s.metaCache.getList (w.now s.ticks) p with
  | some r => exact ⟨rfl, rfl⟩
  | none =>
    simp only [Option.isSome_none, Bool.false_eq_true, if_false]
    have hstale : ∀ (e : GoError) (s₁ : Session KR), (Session.staleList p e s₁).state = s₁ := by
      intro e s₁
      simp only [Session.staleList]
      split <;> rfl
    rcases s.tick.resolvePath C w p with ⟨e | node, s₁⟩
    · simp only [Outcome.andThen_error, Outcome.recover_error, hstale]
      exact ⟨rfl, rfl⟩
    · rw [Outcome.andThen_ok]
      have hcall := Session.callAPI_answer w s₁ (fun srv => srv.children node.1)
      rcases hrun : s₁.callAPI w (fun srv => srv.children node.1) with ⟨e | links, s₂⟩
      · rw [hrun] at hcall
        obtain ⟨-, rfl⟩ := hcall
        simp only [Outcome.andThen_error, Outcome.recover_error, hstale]
        exact ⟨rfl, rfl⟩
      · rw [hrun] at hcall
        obtain ⟨-, rfl⟩ := hcall
        exact ⟨rfl, rfl⟩

theorem listChildren_wrote (s : Session KR) (p : Path) :
    Wrote s.linkPaths s.pathLinks (callWrites C w s (.listChildren p))
      (s.listChildren C w p).state := by
  refine Wrote.congr ?_ (listChildren_maps s p)
  simp only [callWrites]
  split_ifs
  · exact wrote_none rfl fun _ _ h => h
  · exact resolvePath_wrote s.tick p

/-- A directory that is resolved is listed without touching the maps. -/
theorem listChildren_of_resolved {p : Path} {n : LinkID × KR}
    (h : s.resolved (absolute p) = some n) : SameMaps s (s.listChildren C w p).state := by
  have hres : (s.tick.resolvePath C w p).state = s.tick := by
    simp only [Session.resolvePath]
    have ht : s.tick.resolved (absolute p) = some n := h
    simp only [ht]
  have hm := listChildren_maps (C := C) (w := w) s p
  rw [hres] at hm
  split_ifs at hm <;> exact hm

theorem stat_wrote (s : Session KR) (p : Path) :
    Wrote s.linkPaths s.pathLinks (callWrites C w s (.stat p)) (s.stat C w p).state := by
  simp only [Session.stat, callWrites]
  cases s.metaCache.getStat (w.now s.ticks) (absolute p) with
  | some r => exact wrote_none rfl fun _ _ h => h
  | none =>
    simp only [Option.isSome_none, Bool.false_eq_true, false_or]
    have hrecover : ∀ o : Step KR (Link × KR), SameMaps o.state
        ((o.andThen fun r s => ⟨.ok r, Session.setStat w s (absolute p) r.1 r.2⟩).recover
          (Session.staleStat (absolute p))).state := by
      rintro ⟨e | r, s₁⟩
      · simp only [Outcome.andThen_error, Outcome.recover_error, Session.staleStat]
        split <;> exact ⟨rfl, rfl⟩
      · exact ⟨rfl, rfl⟩
    refine Wrote.congr ?_ (hrecover _)
    simp only [Session.statUncached]
    split_ifs with hroot
    · have hmaps : ((s.tick.callAPI w fun srv => srv.link s.tick.rootID).andThen fun link s =>
          (s.rootNodeKeyRing C w).andThen fun kr s => ⟨.ok (link, kr), s⟩).Sat
          (fun _ => SameMaps s) (fun _ => SameMaps s) := by
        refine ((Session.callAPI_answer w s.tick _).mono (fun _ _ h => h.2)
          (fun _ _ h => by rw [h.2]; exact ⟨rfl, rfl⟩)).andThen ?_
        rintro l _ rfl
        apply ((rootNodeKeyRing_maps _).mono (fun _ _ h => h) (fun _ _ h => h)).andThen
        rintro kr s₁ ⟨hl, hp, -, -⟩
        exact ⟨hl, hp⟩
      have hm := hmaps.state
      exact wrote_none hm.1 fun q id h => hm.2 ▸ h
    · simp only [Session.parentKRFor]
      rw [absolute_absolute]
      have hwrote := resolvePath_wrote (C := C) (w := w) s.tick (dir (absolute p))
      have hres := resolvePath_resolved (C := C) (w := w) s.tick (dir (absolute p))
      rcases hrun : s.tick.resolvePath C w (dir (absolute p)) with ⟨e | node, s₁⟩
      · rw [hrun] at hwrote
        exact hwrote
      · rw [hrun] at hwrote hres
        apply Wrote.congr hwrote
        have hlist := listChildren_of_resolved (C := C) (w := w) hres
        simp only [Outcome.andThen_ok]
        rcases hls : s₁.listChildren C w (dir (absolute p)) with ⟨e | r, s₂⟩
        · rw [hls] at hlist
          exact hlist
        · rw [hls] at hlist
          rw [Outcome.andThen_ok]
          split <;> exact hlist

theorem exec_wrote (s : Session KR) (c : Call) :
    Wrote s.linkPaths s.pathLinks (callWrites C w s c) (exec C w s c).state := by
  cases c with
  | resolvePath p =>
    apply (resolvePath_wrote s p).congr
    simp only [exec]
    rcases s.resolvePath C w p with ⟨e | n, s₁⟩ <;> exact ⟨rfl, rfl⟩
  | listChildren p =>
    apply (listChildren_wrote s p).congr
    simp only [exec]
    rcases s.listChildren C w p with ⟨e | n, s₁⟩ <;> exact ⟨rfl, rfl⟩
  | stat p =>
    apply (stat_wrote s p).congr
    simp only [exec]
    rcases s.stat C w p with ⟨e | n, s₁⟩ <;> exact ⟨rfl, rfl⟩
  | invalidatePath p =>
    refine wrote_none rfl fun q id h => ?_
    simp only [exec, Session.invalidatePath, lookup_dropKeys] at h
    split_ifs at h
    exact h
  | invalidateLinkID i =>
    refine wrote_none rfl fun q id h => ?_
    cases hi : s.linkPaths.lookup i with
    | none =>
      simp only [exec, Session.invalidateLinkID, hi] at h
      exact h
    | some p =>
      simp only [exec, Session.invalidateLinkID, hi, lookup_erase_ite] at h
      split_ifs at h
      exact h
  | invalidateAll =>
    refine wrote_none rfl fun q id h => ?_
    cases h

end Calls

section Events

variable {le : LinkEvent} {o : Attempt KR}

/-- The session once the branch of an event has made its invalidations. -/
def dropped (w : World) (s : Session KR) (le : LinkEvent) : Session KR :=
  match le.eventType with
  | .delete =>
    let s := invalidateDeleted w le.link s
    (dropBlocks le.link.linkID s).getD s
  | .create => invalidateCreated w le.link s
  | .update | .updateMetadata =>
    let s := invalidateUpdated w le.link s
    (dropBlocks le.link.linkID s).getD s

/-- The bindings of a listing: every decryptable link at its place. -/
def listingBindings (C : Crypto KR) (dirPath : Path) (kr : KR) (links : List Link) :
    List (LinkID × Path) :=
  links.filterMap fun l => (C.getName l kr).map fun n => (l.linkID, child dirPath n)

/-- The bindings of a guarded diff; none when no diff is made or its API call fails. -/
def diffBindings (C : Crypto KR) (w : World) (dirPath : Path) (id : LinkID)
    (old : Option (List Link × KR)) (s : Session KR) : Option (List (LinkID × Path)) :=
  (diffable dirPath id old s).bind fun r =>
    (w.answer s.ticks (fun srv => srv.children id)).map (listingBindings C dirPath r.2)

/-- The bindings of an event: of a created link, or of the listing of the first diff. -/
def eventBindings (C : Crypto KR) (w : World) (s : Session KR) (le : LinkEvent) :
    List (LinkID × Path) :=
  let path := s.linkPath le.link.linkID
  let parentPath := s.linkPath le.link.parentLinkID
  let old := s.metaCache.getListStale path
  let oldParent := s.metaCache.getListStale parentPath
  let s := dropped w s le
  match le.eventType with
  | .delete => []
  | .create => match announcedName C w le.link parentPath s with
    | some n => [(le.link.linkID, child parentPath n)]
    | none => (diffBindings C w parentPath le.link.parentLinkID oldParent
        (announceCreated C w le.link parentPath s).state).getD []
  | .update | .updateMetadata =>
    ((diffBindings C w path le.link.linkID old s).or
      (diffBindings C w parentPath le.link.parentLinkID oldParent
        (diffCached C w path le.link.linkID old s).state)).getD []

theorem recordChildren_linkPaths (d : Path) (kr : KR) (links : List Link) (s : Session KR) :
    (recordChildren C d kr links s).linkPaths =
      (listingBindings C d kr links).foldl (fun m b => m.insert b.1 b.2) s.linkPaths := by
  simp only [recordChildren, listingBindings]
  induction links generalizing s with
  | nil => rfl
  | cons l links ih =>
    rw [List.foldl_cons, ih, List.filterMap_cons]
    cases C.getName l kr <;> rfl

theorem diffCached_maps (d : Path) (id : LinkID) (old : Option (List Link × KR))
    (s : Session KR) :
    (diffCached C w d id old s).Sat
      (fun _ s' => ∃ bs, diffBindings C w d id old s = some bs ∧
        s'.linkPaths = bs.foldl (fun m b => m.insert b.1 b.2) s.linkPaths ∧
        s'.pathLinks = s.pathLinks)
      (fun _ s' => diffBindings C w d id old s = none ∧ SameMaps s s') := by
  simp only [diffBindings]
  rw [diffCached_eq]
  cases diffable d id old s with
  | none => exact ⟨rfl, rfl, rfl⟩
  | some r =>
    refine (diffAndEmit_spec d id r.2 r.1 s).mono ?_ ?_
    · rintro _ _ ⟨new, hf, hn, -, rfl⟩
      refine ⟨listingBindings C d r.2 new, by simp [World.answer, hf, hn], ?_, ?_⟩
      · exact recordChildren_linkPaths d r.2 new s.tick
      · exact (kept_relisted d r.2 new s.tick).pathLinks
    · rintro _ _ ⟨rfl, hn⟩
      refine ⟨?_, rfl, rfl⟩
      simp only [Option.bind_some, Option.map_eq_none_iff, World.answer]
      split_ifs with hf
      · exact hn hf
      · rfl

/-- A diff either records the bindings of its listing, or leaves the maps to what comes after it. -/
theorem diffCached_recover (Q : Session KR → Prop) {d : Path} {id : LinkID}
    {old : Option (List Link × KR)}
    {g : Unit → Session KR → Attempt KR}
    (hdone : ∀ bs s', diffBindings C w d id old s = some bs →
      s'.linkPaths = bs.foldl (fun m b => m.insert b.1 b.2) s.linkPaths →
      s'.pathLinks = s.pathLinks → Q s')
    (hfail : ∀ s', (diffCached C w d id old s).state = s' →
      diffBindings C w d id old s = none → SameMaps s s' → Q (g () s').state) :
    Q ((diffCached C w d id old s).recover g).state := by
  have h := diffCached_maps (C := C) (w := w) d id old s
  rcases hrun : diffCached C w d id old s with ⟨e | evs, s'⟩
  · rw [hrun] at h
    exact hfail s' (by rw [hrun]) h.1 h.2
  · rw [hrun] at h
    obtain ⟨bs, hb, hl, hp⟩ := h
    exact hdone bs s' hb hl hp

theorem announceCreate_wrote (hcr : le.eventType = .create) :
    Wrote s.linkPaths (dropped w s le).pathLinks ⟨eventBindings C w s le, []⟩
      (announceCreate C w le.link s (invalidateCreated w le.link s)).state := by
  have hdrop : dropped w s le = invalidateCreated w le.link s := by
    simp only [dropped]
    rw [hcr]
  have hlinks : (invalidateCreated w le.link s).linkPaths = s.linkPaths := by
    simp only [invalidateCreated]
    split_ifs <;> rfl
  simp only [eventBindings, hcr, hdrop]
  set d := s.linkPath le.link.parentLinkID
  set s₁ := invalidateCreated w le.link s
  rw [← hlinks]
  unfold announceCreate
  have hc := announceCreated_spec (C := C) (w := w) le.link d s₁
  dsimp only
  rcases hrun : announceCreated C w le.link d s₁ with ⟨e | evs, s₂⟩
  · rw [hrun] at hc
    obtain ⟨ht, hnone⟩ := hc
    have hsame : SameMaps s₁ s₂ := by rcases ht with rfl | rfl <;> exact ⟨rfl, rfl⟩
    simp only [hnone, Outcome.recover_error]
    apply diffCached_recover (Wrote s₁.linkPaths s₁.pathLinks _)
    · intro bs s₃ hb hl hp
      rw [hb]
      exact wrote_recorded (hl.trans (by rw [hsame.1]; rfl)) (hp.trans hsame.2)
    · intro s₃ _ hb hsame'
      rw [hb]
      exact wrote_none (hsame'.1.trans hsame.1) fun p id h => hsame.2 ▸ hsame'.2 ▸ h
  · rw [hrun] at hc
    obtain ⟨n, s₃, hn, -, ht, -, rfl⟩ := hc
    have hsame : SameMaps s₁ s₃ := by rcases ht with rfl | rfl <;> exact ⟨rfl, rfl⟩
    simp only [hn, Outcome.recover_ok]
    exact wrote_recorded (by rw [← hsame.1]; rfl) hsame.2

/-- An update writes the bindings of its diff, or forgets the path of a trashed link. -/
theorem announceUpdate_wrote (hu : le.eventType ≠ .create ∧ le.eventType ≠ .delete)
    (hs₁ : dropBlocks le.link.linkID (invalidateUpdated w le.link s) = some s₁) :
    Wrote s.linkPaths (dropped w s le).pathLinks ⟨eventBindings C w s le, []⟩
      (announceUpdate C w le.link s s₁).state ∨
    (announceUpdate C w le.link s s₁).state.linkPaths = s.linkPaths.erase le.link.linkID ∧
      (announceUpdate C w le.link s s₁).state.pathLinks = (dropped w s le).pathLinks := by
  have hdrop : dropped w s le = s₁ := by
    simp only [dropped]
    cases ht : le.eventType with
    | create => exact absurd ht hu.1
    | delete => exact absurd ht hu.2
    | update | updateMetadata => simp only [hs₁, Option.getD_some]
  have hbind : eventBindings C w s le =
      ((diffBindings C w (s.linkPath le.link.linkID) le.link.linkID
        (s.metaCache.getListStale (s.linkPath le.link.linkID)) s₁).or
      (diffBindings C w (s.linkPath le.link.parentLinkID) le.link.parentLinkID
        (s.metaCache.getListStale (s.linkPath le.link.parentLinkID))
        (diffCached C w (s.linkPath le.link.linkID) le.link.linkID
          (s.metaCache.getListStale (s.linkPath le.link.linkID)) s₁).state)).getD [] := by
    simp only [eventBindings]
    simp only [hdrop]
    cases ht : le.eventType with
    | create => exact absurd ht hu.1
    | delete => exact absurd ht hu.2
    | update | updateMetadata => rfl
  have hlinks : s₁.linkPaths = s.linkPaths := by
    obtain ⟨bc, -, rfl⟩ := dropBlocks_eq_some hs₁
    simp only [invalidateUpdated]
    split_ifs <;> rfl
  rw [hbind, hdrop, ← hlinks]
  simp only [announceUpdate]
  set p := s.linkPath le.link.linkID
  set d := s.linkPath le.link.parentLinkID
  let written (bs : List (LinkID × Path)) (s' : Session KR) : Prop :=
    Wrote s₁.linkPaths s₁.pathLinks ⟨bs, []⟩ s' ∨
      s'.linkPaths = s₁.linkPaths.erase le.link.linkID ∧ s'.pathLinks = s₁.pathLinks
  refine diffCached_recover (written _) ?_ ?_
  · intro bs s₂ hb hl hp
    rw [hb]
    exact .inl (wrote_recorded hl hp)
  · intro s₂ hrun hb hsame
    rw [hb, Option.none_or, hrun]
    refine diffCached_recover (written _) ?_ ?_
    · intro bs s₃ hb' hl hp
      rw [hb']
      exact .inl (wrote_recorded (hl.trans (by rw [hsame.1]; rfl)) (hp.trans hsame.2))
    · intro s₃ _ hb' hsame'
      have htr := announceTrashed_spec (w := w) le.link.linkID p s₃
      rw [hb']
      rcases hrun'' : announceTrashed w le.link.linkID p s₃ with ⟨e | evs, s₄⟩
      · rw [hrun''] at htr
        have hs₄ : SameMaps s₃ s₄ := by rcases htr.1 with rfl | rfl <;> exact ⟨rfl, rfl⟩
        exact .inl (wrote_none (hs₄.1.trans (hsame'.1.trans hsame.1))
          fun q id h => hsame.2 ▸ hsame'.2 ▸ hs₄.2 ▸ h)
      · rw [hrun''] at htr
        obtain ⟨l, -, -, -, -, -, rfl⟩ := htr
        refine .inr ⟨?_, hsame'.2.trans hsame.2⟩
        change s₃.linkPaths.erase _ = _
        rw [hsame'.1, hsame.1]

/-- Invalidating a path takes the paths at and below it out of the registered ones. -/
theorem pathLinks_invalidatePath {p q : Path} {id : LinkID}
    (h : (s.invalidatePath q).pathLinks.lookup p = some id) :
    s.pathLinks.lookup p = some id ∧ ¬Session.atOrBelow q p := by
  simp only [Session.invalidatePath, lookup_dropKeys] at h
  split_ifs at h with hb
  exact ⟨h, hb⟩

theorem atOrBelow_self (p : Path) : Session.atOrBelow p p := by simp [Session.atOrBelow]

theorem pathLinks_invalidateLinkID {p : Path} {i id : LinkID}
    (h : (s.invalidateLinkID w i).pathLinks.lookup p = some id) :
    s.pathLinks.lookup p = some id := by
  simp only [Session.invalidateLinkID] at h
  split at h
  · rw [lookup_erase_ite] at h
    split_ifs at h
    exact h
  · exact h

theorem pathLinks_dropBlocks (i : LinkID) (s : Session KR) :
    ((dropBlocks i s).getD s).pathLinks = s.pathLinks := by
  simp only [dropBlocks]
  cases s.blocks <;> rfl

/-- The paths that the invalidations of an event take out of the registered ones. -/
def Cleared (s : Session KR) (le : LinkEvent) (q : Path) : Prop :=
  match le.eventType with
  | .delete => Session.atOrBelow (s.linkPath le.link.linkID) q
  | .create => s.linkPath le.link.parentLinkID ≠ [] ∧
      Session.atOrBelow (s.linkPath le.link.parentLinkID) q
  | .update | .updateMetadata => Session.atOrBelow (s.linkPath le.link.linkID) q ∨
      (s.linkPath le.link.parentLinkID ≠ [] ∧
        Session.atOrBelow (s.linkPath le.link.parentLinkID) q)

theorem cleared_own (hc : le.eventType ≠ .create) : Cleared s le (s.linkPath le.link.linkID) := by
  have hself := atOrBelow_self (s.linkPath le.link.linkID)
  simp only [Cleared]
  cases ht : le.eventType with
  | create => exact absurd ht hc
  | delete => exact hself
  | update | updateMetadata => exact .inl hself

theorem pathLinks_invalidateUpdated {p : Path} {id : LinkID} {link : Link}
    (h : (invalidateUpdated w link s).pathLinks.lookup p = some id) :
    s.pathLinks.lookup p = some id ∧ ¬Session.atOrBelow (s.linkPath link.linkID) p ∧
      ¬(s.linkPath link.parentLinkID ≠ [] ∧
        Session.atOrBelow (s.linkPath link.parentLinkID) p) := by
  have hsecond : ((s.invalidatePath (s.linkPath link.linkID)).pathLinks.lookup p = some id ∧
      ¬(s.linkPath link.parentLinkID ≠ [] ∧ s.linkPath link.parentLinkID ≠ s.linkPath link.linkID ∧
        Session.atOrBelow (s.linkPath link.parentLinkID) p)) := by
    have hpath := @pathLinks_invalidatePath KR (s.invalidatePath (s.linkPath link.linkID)) p
      (s.linkPath link.parentLinkID) id
    simp only [invalidateUpdated] at h
    split_ifs at h with hp hpp hpp
    · exact ⟨(hpath (pathLinks_invalidateLinkID h)).1,
        fun hb => (hpath (pathLinks_invalidateLinkID h)).2 hb.2.2⟩
    · exact ⟨pathLinks_invalidateLinkID h, fun hb => hpp ⟨hb.1, hb.2.1⟩⟩
    · exact ⟨(hpath h).1, fun hb => (hpath h).2 hb.2.2⟩
    · exact ⟨h, fun hb => hpp ⟨hb.1, hb.2.1⟩⟩
  obtain ⟨hfirst, hparent⟩ := hsecond
  obtain ⟨hold, hown⟩ := pathLinks_invalidatePath hfirst
  refine ⟨hold, hown, fun hb => ?_⟩
  by_cases he : s.linkPath link.parentLinkID = s.linkPath link.linkID
  · exact hown (he ▸ hb.2)
  · exact hparent ⟨hb.1, he, hb.2⟩

/-- What an event leaves registered was registered, and not at a path it clears. -/
theorem pathLinks_dropped {p : Path} {id : LinkID}
    (h : (dropped w s le).pathLinks.lookup p = some id) :
    s.pathLinks.lookup p = some id ∧ ¬Cleared s le p := by
  simp only [dropped] at h
  simp only [Cleared]
  cases ht : le.eventType with
  | delete =>
    simp only [ht, pathLinks_dropBlocks, invalidateDeleted] at h
    split_ifs at h
    · exact pathLinks_invalidatePath (pathLinks_invalidateLinkID h)
    · exact pathLinks_invalidatePath h
  | create =>
    simp only [ht, invalidateCreated] at h
    split_ifs at h with hpp
    · exact ⟨pathLinks_invalidateLinkID h, fun hb => hb.1 hpp⟩
    · exact ⟨(pathLinks_invalidatePath h).1, fun hb => (pathLinks_invalidatePath h).2 hb.2⟩
  | update | updateMetadata =>
    have hu : (invalidateUpdated w le.link s).pathLinks.lookup p = some id := by
      simpa only [ht, pathLinks_dropBlocks] using h
    obtain ⟨hold, hown, hparent⟩ := pathLinks_invalidateUpdated hu
    exact ⟨hold, fun hb => hb.elim hown hparent⟩

/-- With inverse maps, the link of a Delete or Update event keeps no registered path. -/
theorem dropped_unregistered (h : Inverse s) (hc : le.eventType ≠ .create) (p : Path) :
    (dropped w s le).pathLinks.lookup p ≠ some le.link.linkID := by
  intro hp
  obtain ⟨hold, hcleared⟩ := pathLinks_dropped hp
  have hpath : s.linkPath le.link.linkID = p := by
    rw [Session.linkPath, h p _ hold, Option.getD_some]
  exact hcleared (hpath ▸ cleared_own hc)

/-- The maps after an event. -/
theorem handle_wrote (h : handle C w le s = some o) :
    Wrote s.linkPaths (dropped w s le).pathLinks ⟨eventBindings C w s le, []⟩ o.state ∨
    (le.eventType ≠ .create ∧ o.state.linkPaths = s.linkPaths.erase le.link.linkID ∧
      o.state.pathLinks = (dropped w s le).pathLinks) := by
  rcases handle_cases h with ⟨hcr, rfl⟩ | ⟨hdel, s₁, hs₁, rfl⟩ | ⟨hu, s₁, hs₁, rfl⟩
  · exact .inl (announceCreate_wrote hcr)
  · left
    rw [announceDelete_kept]
    have hdrop : dropped w s le = s₁ := by
      simp only [dropped]
      simp only [hdel, hs₁, Option.getD_some]
    have hbind : eventBindings C w s le = [] := by
      simp only [eventBindings]
      simp only [hdel]
    have hlinks : s₁.linkPaths = s.linkPaths := by
      obtain ⟨bc, -, rfl⟩ := dropBlocks_eq_some hs₁
      simp only [invalidateDeleted]
      split_ifs <;> rfl
    rw [hdrop, hbind, ← hlinks]
    exact wrote_none rfl fun _ _ h => h
  · rcases announceUpdate_wrote hu hs₁ with hw | hw
    · exact .inl hw
    · exact .inr ⟨hu.1, hw⟩

theorem handle_left (h : handle C w le s = some o) {p : Path} {id : LinkID}
    (hp : o.state.pathLinks.lookup p = some id) :
    (dropped w s le).pathLinks.lookup p = some id := by
  rcases handle_wrote h with hw | ⟨-, -, hpl⟩
  · rcases hw.paths p id hp with hreg | ⟨hold, -⟩
    · cases hreg
    · exact hold
  · exact hpl ▸ hp

end Events

section Steps

/-- A step of the session: a call or a link event. -/
inductive Op
  | call (c : Call)
  | event (le : LinkEvent)

def step (C : Crypto KR) (w : World) (s : Session KR) : Op → Option (Session KR)
  | .call c => some (exec C w s c).state
  | .event le => (handle C w le s).map fun o => o.state

def writes (C : Crypto KR) (w : World) (s : Session KR) : Op → Writes
  | .call c => callWrites C w s c
  | .event le => ⟨eventBindings C w s le, []⟩

/-- What stays registered once the step has made its invalidations. -/
def left (w : World) (s : Session KR) : Op → KeyMap Path LinkID
  | .call _ => s.pathLinks
  | .event le => (dropped w s le).pathLinks

theorem registered_recorded (w : World) (s : Session KR) (op : Op) :
    ∀ b ∈ (writes C w s op).registered, b ∈ (writes C w s op).recorded := by
  have hresolve : ∀ (s : Session KR) p, ∀ b ∈ (resolveWrites C w s p).registered,
      b ∈ (resolveWrites C w s p).recorded := by
    intro s p b hb
    simp only [resolveWrites] at *
    split at hb
    · exact hb
    · split at hb
      · cases hb
      · exact hb
  cases op with
  | event le => exact nofun
  | call c =>
    cases c with
    | resolvePath p => exact hresolve s p
    | listChildren p =>
      simp only [writes, callWrites]
      split_ifs
      · exact fun _ h => h
      · exact hresolve _ _
    | stat p =>
      simp only [writes, callWrites]
      split_ifs
      · exact fun _ h => h
      · exact hresolve _ _
    | invalidatePath p => exact fun _ h => h
    | invalidateLinkID id => exact fun _ h => h
    | invalidateAll => exact fun _ h => h

/-- One settled step keeps the maps inverse. -/
theorem step_inverse {op : Op} (h : Inverse s) (hset : Settled (left w s op) (writes C w s op))
    (hs : step C w s op = some s') : Inverse s' := by
  cases op with
  | call c =>
    cases hs
    exact Wrote.inverse h (fun _ _ hp => hp) (registered_recorded w s (.call c)) (exec_wrote s c)
      hset
  | event le =>
    obtain ⟨o, ho, rfl⟩ := Option.map_eq_some_iff.mp hs
    rcases handle_wrote ho with hw | ⟨hc, hl, -⟩
    · exact Wrote.inverse h (fun _ _ hp => (pathLinks_dropped hp).1)
        (registered_recorded w s (.event le)) hw hset
    · intro p id hp
      have hleft := handle_left ho hp
      have hne : id ≠ le.link.linkID := fun hid => dropped_unregistered h hc p (hid ▸ hleft)
      rw [hl, lookup_erase_ite, if_neg hne]
      exact h p id (pathLinks_dropped hleft).1

theorem listingBindings_absolute (hC : C.NamesAreComponents) {d : Path} (hd : IsAbsolute d)
    (kr : KR) (links : List Link) : ∀ b ∈ listingBindings C d kr links, IsAbsolute b.2 := by
  intro b hb
  obtain ⟨l, -, hl⟩ := List.mem_filterMap.mp hb
  obtain ⟨n, hn, rfl⟩ := Option.map_eq_some_iff.mp hl
  exact hd.child (hC l kr n hn)

theorem diffBindings_absolute (hC : C.NamesAreComponents) {d : Path} {id : LinkID}
    {old : Option (List Link × KR)} (hd : d ≠ [] → IsAbsolute d) {bs : List (LinkID × Path)}
    (h : diffBindings C w d id old s = some bs) : ∀ b ∈ bs, IsAbsolute b.2 := by
  obtain ⟨r, hr, hm⟩ := Option.bind_eq_some_iff.mp h
  obtain ⟨links, -, rfl⟩ := Option.map_eq_some_iff.mp hm
  refine listingBindings_absolute hC (hd ?_) r.2 links
  rintro rfl
  simp [diffable] at hr

theorem eventBindings_absolute (hC : C.NamesAreComponents) (hs : PathsAbsolute s) (le : LinkEvent) :
    ∀ b ∈ eventBindings C w s le, IsAbsolute b.2 := by
  have hgetD : ∀ {x : Option (List (LinkID × Path))},
      (∀ bs, x = some bs → ∀ b ∈ bs, IsAbsolute b.2) → ∀ b ∈ x.getD [], IsAbsolute b.2 := by
    intro x hx b hb
    cases x with
    | none => cases hb
    | some bs => exact hx bs rfl b hb
  have hpath : ∀ id, s.linkPath id ≠ [] → IsAbsolute (s.linkPath id) :=
    fun id => linkPath_absolute hs
  simp only [eventBindings]
  cases le.eventType with
  | delete =>
    dsimp only
    exact fun _ h => nomatch h
  | create =>
    dsimp only
    split
    · rename_i n hn
      intro b hb
      cases List.mem_singleton.mp hb
      refine (hpath _ ?_).child (announcedName_component hC hn)
      intro hnil
      simp [announcedName, hnil] at hn
    · exact hgetD fun bs hbs => diffBindings_absolute hC (hpath _) hbs
  | update | updateMetadata =>
    dsimp only
    refine hgetD fun bs hbs => ?_
    rcases Option.or_eq_some_iff.mp hbs with hown | ⟨-, hparent⟩
    · exact diffBindings_absolute hC (hpath _) hown
    · exact diffBindings_absolute hC (hpath _) hparent

/-- An event records the paths of names below recorded paths. -/
theorem handle_pathsAbsolute (hC : C.NamesAreComponents) (h : PathsAbsolute s) {le : LinkEvent}
    {o : Attempt KR} (ho : handle C w le s = some o) : PathsAbsolute o.state := by
  intro id p hp
  rcases handle_wrote ho with hw | ⟨-, hl, -⟩
  · rcases hw.recorded hp with hrec | hold
    · exact eventBindings_absolute hC h le _ hrec
    · exact h id p hold
  · rw [hl, lookup_erase_ite] at hp
    split_ifs at hp
    exact h id p hp

end Steps

end ProtonDrive.PathMaps
