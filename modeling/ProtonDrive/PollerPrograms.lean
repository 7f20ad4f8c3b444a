import ProtonDrive.ResponseFlow

/-!
# The event poller as a program

`handle` of `events.go` with its API calls and cache accesses one at a time, in the order of
the source. Run without interference it does what the atomic `handle` does. It fetches only
after it has invalidated, so that what it stores is from the responses of the attempt at hand.
-/

namespace ProtonDrive.PollerPrograms
open SlashPaths KeyedMaps FallibleSteps DriveApi Programs Programs.Prog SessionPrograms
  ResponseFlow EventPoller
open DriveSession hiding exec Answer

variable {KR τ : Type}

section Programs

/-- A failed API call hands the event on to the next attempt. -/
def attempt {α : Type} : Except GoError α → Op KR τ Unit α
  | .ok a => pure a
  | .error _ => .fail ()

def invalidatePath (p : Path) : Op KR τ Unit Unit := do
  ask (.invalidateMeta p)
  ask (.deletePathLinks p)

def invalidateLinkID (id : LinkID) : Op KR τ Unit Unit := do
  ask (.invalidateMetaLink id)
  ask (.deletePathLinkOf id)

variable (C : Crypto KR)

def recordChildren (dirPath : Path) (kr : KR) : List Link → Op KR τ Unit Unit
  | [] => pure ()
  | l :: links => do
    match C.getName l kr with
    | some name => ask (.setLinkPath l.linkID (child dirPath name))
    | none => pure ()
    recordChildren dirPath kr links

def diffAndEmit (dirPath : Path) (dirLinkID : LinkID) (dirKR : KR) (oldLinks : List Link) :
    Op KR τ Unit (List DriveEvent) := do
  let newLinks ← ask (.listChildren dirLinkID) >>= attempt
  recordChildren C dirPath dirKR newLinks.val
  ask (.setList dirPath newLinks dirKR)
  let oldNames := decryptNames C dirKR oldLinks
  let newNames := decryptNames C dirKR newLinks.val
  let order₁ ← ask .rangeOrder
  let order₂ ← ask .rangeOrder
  pure (namesOnlyIn order₁ .created dirPath newNames oldNames ++
    namesOnlyIn order₂ .deleted dirPath oldNames newNames)

def diffCached (dirPath : Path) (dirLinkID : LinkID)
    (old : Option (Tagged τ (List Link) × KR)) : Op KR τ Unit (List DriveEvent) :=
  if dirPath = [] then .fail ()
  else match old with
    | none => .fail ()
    | some r => do
      match ← ask (.nodeKR dirLinkID) with
      | none => .fail ()
      | some kr => diffAndEmit C dirPath dirLinkID kr r.1.val

def announceChanged (linkID : LinkID) (p : Path) : Op KR τ Unit (List DriveEvent) :=
  pure (if p = [] then [] else [⟨.changed, linkID, p⟩])

def createdName (link : Link) (parentKR : KR) : Op KR τ Unit (Option Path) :=
  match C.getName link parentKR with
  | some name => pure (some name)
  | none => do
    match ← ask (.getLink link.linkID) with
    | .ok fullLink => pure (C.getName fullLink.val parentKR)
    | .error _ => pure none

def announceCreated (link : Link) (parentPath : Path) : Op KR τ Unit (List DriveEvent) :=
  if parentPath = [] then .fail ()
  else do
    match ← ask (.nodeKR link.parentLinkID) with
    | none => .fail ()
    | some parentKR => match ← createdName C link parentKR with
      | none => .fail ()
      | some name =>
        if name = [] then .fail ()
        else do
          ask (.setLinkPath link.linkID (child parentPath name))
          pure [⟨.created, link.linkID, child parentPath name⟩]

def announceTrashed (linkID : LinkID) (p : Path) : Op KR τ Unit (List DriveEvent) :=
  if p = [] then .fail ()
  else do
    let link ← ask (.getLink linkID) >>= attempt
    if link.val.state = .trashed ∨ link.val.state = .deleted then do
      ask (.deleteLinkPath linkID)
      pure [⟨.deleted, linkID, p⟩]
    else .fail ()

def invalidateDeleted (link : Link) (path : Path) : Op KR τ Unit Unit := do
  invalidatePath path
  if path = [] then invalidateLinkID link.parentLinkID else pure ()

def invalidateCreated (link : Link) (parentPath : Path) : Op KR τ Unit Unit :=
  if parentPath = [] then invalidateLinkID link.parentLinkID else invalidatePath parentPath

def invalidateUpdated (link : Link) (path parentPath : Path) : Op KR τ Unit Unit := do
  invalidatePath path
  if parentPath ≠ [] ∧ parentPath ≠ path then invalidatePath parentPath else pure ()
  if path = [] then invalidateLinkID link.parentLinkID else pure ()

/-- `s.blocks.InvalidateLink`; without a block cache the helper crashes. -/
def dropBlocks (id : LinkID) (next : Op KR τ Unit (List DriveEvent)) :
    Op KR τ Unit (List DriveEvent) := do
  if ← ask (.invalidateBlocks id) then next else .fail ()

def handleDelete (link : Link) : Op KR τ Unit (List DriveEvent) := do
  let path ← ask (.linkPath link.linkID)
  let parentPath ← ask (.linkPath link.parentLinkID)
  invalidateDeleted link path
  dropBlocks link.linkID <|
    if path = [] then announceChanged link.linkID parentPath
    else pure [⟨.deleted, link.linkID, path⟩]

def handleCreate (link : Link) : Op KR τ Unit (List DriveEvent) := do
  let parentPath ← ask (.linkPath link.parentLinkID)
  let old ← ask (.getListStale parentPath)
  invalidateCreated link parentPath
  (announceCreated C link parentPath).recover fun _ =>
    (diffCached C parentPath link.parentLinkID old).recover fun _ =>
      announceChanged link.linkID parentPath

def handleUpdate (link : Link) : Op KR τ Unit (List DriveEvent) := do
  let path ← ask (.linkPath link.linkID)
  let parentPath ← ask (.linkPath link.parentLinkID)
  let old ← ask (.getListStale path)
  let oldParent ← ask (.getListStale parentPath)
  invalidateUpdated link path parentPath
  dropBlocks link.linkID <|
    (diffCached C path link.linkID old).recover fun _ =>
      (diffCached C parentPath link.parentLinkID oldParent).recover fun _ =>
        (announceTrashed link.linkID path).recover fun _ =>
          announceChanged link.linkID (if path = [] then parentPath else path)

/-- Handle one link event; a failure is a crash of the helper. -/
def handle (le : LinkEvent) : Op KR τ Unit (List DriveEvent) :=
  match le.eventType with
  | .delete => handleDelete le.link
  | .create => handleCreate C le.link
  | .update | .updateMetadata => handleUpdate C le.link

end Programs

section Agreement

variable {C : Crypto KR} {w : World} {stamp : ℕ → τ} {x : Journaled KR τ}

theorem run_invalidatePath (p : Path) (x : Journaled KR τ) :
    (invalidatePath p).run (exec w stamp) x = ⟨.ok (), x.update (x.sess.invalidatePath p)⟩ := rfl

theorem run_invalidateDeleted (link : Link) (x : Journaled KR τ) :
    (invalidateDeleted link (x.sess.linkPath link.linkID)).run (exec w stamp) x =
      ⟨.ok (), x.update (EventPoller.invalidateDeleted w link x.sess)⟩ := by
  rw [invalidateDeleted, run_bind, run_invalidatePath, Outcome.andThen_ok,
    EventPoller.invalidateDeleted]
  split_ifs <;> rfl

theorem run_invalidateCreated (link : Link) (x : Journaled KR τ) :
    (invalidateCreated link (x.sess.linkPath link.parentLinkID)).run (exec w stamp) x =
      ⟨.ok (), x.update (EventPoller.invalidateCreated w link x.sess)⟩ := by
  rw [invalidateCreated, EventPoller.invalidateCreated]
  split_ifs <;> rfl

theorem run_invalidateUpdated (link : Link) (x : Journaled KR τ) :
    (invalidateUpdated link (x.sess.linkPath link.linkID)
      (x.sess.linkPath link.parentLinkID)).run (exec w stamp) x =
      ⟨.ok (), x.update (EventPoller.invalidateUpdated w link x.sess)⟩ := by
  rw [invalidateUpdated, run_bind, run_invalidatePath, Outcome.andThen_ok,
    EventPoller.invalidateUpdated]
  dsimp only
  split_ifs <;> rfl

theorem run_recordChildren (dirPath : Path) (kr : KR) (links : List Link) (x : Journaled KR τ) :
    (recordChildren C dirPath kr links).run (exec w stamp) x =
      ⟨.ok (), x.update (EventPoller.recordChildren C dirPath kr links x.sess)⟩ := by
  induction links generalizing x with
  | nil => rfl
  | cons l links ih =>
    rw [recordChildren]
    cases hn : C.getName l kr with
    | none =>
      simp only [EventPoller.recordChildren, List.foldl_cons, hn]
      exact ih x
    | some name =>
      simp only [EventPoller.recordChildren, List.foldl_cons, hn]
      exact ih _

theorem seen_diffAndEmit (d : Path) (id : LinkID) (kr : KR) (old : List Link)
    (x : Journaled KR τ) :
    seen w stamp (fun r => r) (diffAndEmit C d id kr old) x =
      EventPoller.diffAndEmit C w d id kr old x.sess := by
  rw [diffAndEmit, EventPoller.diffAndEmit]
  rcases hcall : x.sess.callAPI w (fun srv => srv.children id) with ⟨e | newLinks, s⟩
  · have hrun : (ask (.listChildren id) >>= attempt : Op KR τ Unit _).run (exec w stamp) x =
        ⟨.error (), x.update s⟩ := by
      change (attempt (exec w stamp (.listChildren id) x).1).run _
        (exec w stamp (.listChildren id) x).2 = _
      rw [exec, hcall]
      rfl
    exact seen_bind_error hrun
  · have hrun : (ask (.listChildren id) >>= attempt : Op KR τ Unit _).run (exec w stamp) x =
        ⟨.ok ⟨newLinks, stamp x.sess.ticks⟩, { x with
          sess := s
          received := x.received ++ [⟨newLinks, stamp x.sess.ticks⟩] }⟩ := by
      change (attempt (exec w stamp (.listChildren id) x).1).run _
        (exec w stamp (.listChildren id) x).2 = _
      rw [exec, hcall]
      rfl
    rw [seen_bind_ok hrun, seen_bind_ok (run_recordChildren d kr newLinks _)]
    rfl

theorem seen_diffCached (d : Path) (id : LinkID) (old : Option (Tagged τ (List Link) × KR))
    (x : Journaled KR τ) :
    seen w stamp (fun r => r) (diffCached C d id old) x =
      EventPoller.diffCached C w d id (old.map listing) x.sess := by
  unfold diffCached EventPoller.diffCached
  split_ifs
  · rfl
  · cases old with
    | none => rfl
    | some r =>
      dsimp only [Option.map_some]
      rw [seen_ask, exec]
      dsimp only
      cases x.sess.nodeKRs.lookup id with
      | none => rfl
      | some kr => exact seen_diffAndEmit d id kr r.1.val x

theorem run_createdName (link : Link) (parentKR : KR) (x : Journaled KR τ) :
    ∃ y, (createdName C link parentKR).run (exec w stamp) x =
        ⟨.ok (EventPoller.createdName C w link parentKR x.sess).1, y⟩ ∧
      y.sess = (EventPoller.createdName C w link parentKR x.sess).2 := by
  rw [createdName, EventPoller.createdName]
  cases C.getName link parentKR with
  | some name => exact ⟨x, rfl, rfl⟩
  | none =>
    dsimp only
    change ∃ y, Prog.run _ (match (exec w stamp (.getLink link.linkID) x).1 with
      | .ok fullLink => pure (C.getName fullLink.val parentKR)
      | .error _ => pure none) (exec w stamp (.getLink link.linkID) x).2 = _ ∧ _
    rw [exec]
    rcases x.sess.callAPI w (fun srv => srv.link link.linkID) with ⟨e | fullLink, s⟩
    · exact ⟨x.update s, rfl, rfl⟩
    · exact ⟨_, rfl, rfl⟩

theorem seen_announceCreated (link : Link) (d : Path) (x : Journaled KR τ) :
    seen w stamp (fun r => r) (announceCreated C link d) x =
      EventPoller.announceCreated C w link d x.sess := by
  rw [announceCreated, EventPoller.announceCreated]
  split_ifs
  · rfl
  · rw [seen_ask, exec]
    dsimp only
    cases x.sess.nodeKRs.lookup link.parentLinkID with
    | none => rfl
    | some parentKR =>
      have hname : ∃ y, (createdName C link parentKR).run (exec w stamp) x =
          ⟨.ok (EventPoller.createdName C w link parentKR x.sess).1, y⟩ ∧
        y.sess = (EventPoller.createdName C w link parentKR x.sess).2 := run_createdName ..
      obtain ⟨y, hrun, hy⟩ := hname
      dsimp only
      rw [seen_bind_ok hrun]
      generalize EventPoller.createdName C w link parentKR x.sess = r at hrun hy ⊢
      rcases r with ⟨_ | name, s⟩
      · cases hy
        rfl
      · cases hy
        dsimp only
        split_ifs <;> rfl

theorem seen_announceTrashed (id : LinkID) (p : Path) (x : Journaled KR τ) :
    seen w stamp (fun r => r) (announceTrashed id p) x =
      EventPoller.announceTrashed w id p x.sess := by
  rw [announceTrashed, EventPoller.announceTrashed]
  split_ifs
  · rfl
  · change seen w stamp (fun r => r) (attempt (exec w stamp (.getLink id) x).1 >>= _)
      (exec w stamp (.getLink id) x).2 = _
    rw [exec]
    rcases x.sess.callAPI w (fun srv => srv.link id) with ⟨e | link, s⟩
    · rfl
    · dsimp only [Journaled.receive]
      change seen w stamp (fun r => r) (if link.state = .trashed ∨ link.state = .deleted then _
        else _) _ = _
      split_ifs <;> rfl

theorem seen_dropBlocks (id : LinkID) (next : Op KR τ Unit (List DriveEvent))
    (x : Journaled KR τ) :
    seen w stamp (fun r => r) (dropBlocks id next) x =
      match EventPoller.dropBlocks id x.sess with
      | some s => seen w stamp (fun r => r) next (x.update s)
      | none => ⟨.error (), x.sess⟩ := by
  rw [dropBlocks, seen_ask, exec]
  cases EventPoller.dropBlocks id x.sess <;> rfl

theorem map_tagWith (stamp : τ) (r : Option (List Link × KR)) :
    (tagWith stamp r).map listing = r := by
  cases r <;> rfl

theorem seen_handleDelete (link : Link) (x : Journaled KR τ) :
    seen w stamp (fun r => r) (handleDelete link) x =
      match EventPoller.handleDelete w link x.sess with
      | some o => o
      | none => ⟨.error (), EventPoller.invalidateDeleted w link x.sess⟩ := by
  rw [handleDelete, EventPoller.handleDelete, seen_ask, exec, seen_ask, exec]
  dsimp only
  rw [seen_bind_ok (run_invalidateDeleted link x), seen_dropBlocks]
  dsimp only [Journaled.update]
  cases EventPoller.dropBlocks link.linkID (EventPoller.invalidateDeleted w link x.sess) with
  | none => rfl
  | some s =>
    dsimp only [Option.map_some]
    rw [announceDelete]
    split_ifs <;> rfl

theorem seen_handleCreate (link : Link) (x : Journaled KR τ) :
    seen w stamp (fun r => r) (handleCreate C link) x =
      EventPoller.handleCreate C w link x.sess := by
  rw [handleCreate, EventPoller.handleCreate, announceCreate, seen_ask, exec, seen_ask, exec]
  dsimp only
  rw [seen_bind_ok (run_invalidateCreated link x)]
  apply seen_recover (seen_announceCreated link _ _)
  intro _ y
  apply seen_recover ?_ fun _ _ => rfl
  rw [seen_diffCached, map_tagWith]

theorem seen_handleUpdate (link : Link) (x : Journaled KR τ) :
    seen w stamp (fun r => r) (handleUpdate C link) x =
      match EventPoller.handleUpdate C w link x.sess with
      | some o => o
      | none => ⟨.error (), EventPoller.invalidateUpdated w link x.sess⟩ := by
  rw [handleUpdate, EventPoller.handleUpdate, seen_ask, exec, seen_ask, exec, seen_ask, exec,
    seen_ask, exec]
  dsimp only
  rw [seen_bind_ok (run_invalidateUpdated link x), seen_dropBlocks]
  dsimp only [Journaled.update]
  cases EventPoller.dropBlocks link.linkID (EventPoller.invalidateUpdated w link x.sess) with
  | none => rfl
  | some s =>
    dsimp only [Option.map_some]
    rw [announceUpdate]
    apply seen_recover
    · rw [seen_diffCached, map_tagWith]
    · intro _ y
      apply seen_recover
      · rw [seen_diffCached, map_tagWith]
      · intro _ z
        exact seen_recover (seen_announceTrashed link.linkID _ z) fun _ _ => rfl

/-- The program handles the event as `handle` does, and fails where the helper crashes. -/
theorem seen_handle (le : LinkEvent) (x : Journaled KR τ) :
    match EventPoller.handle C w le x.sess with
    | some o => seen w stamp (fun r => r) (handle C le) x = o
    | none => (seen w stamp (fun r => r) (handle C le) x).result = .error () := by
  have update : match EventPoller.handleUpdate C w le.link x.sess with
      | some o => seen w stamp (fun r => r) (handleUpdate C le.link) x = o
      | none => (seen w stamp (fun r => r) (handleUpdate C le.link) x).result = .error () := by
    rw [seen_handleUpdate]
    cases EventPoller.handleUpdate C w le.link x.sess <;> rfl
  rw [handle, EventPoller.handle]
  cases le.eventType with
  | delete =>
    dsimp only
    rw [seen_handleDelete]
    cases EventPoller.handleDelete w le.link x.sess <;> rfl
  | create => exact seen_handleCreate le.link x
  | update => exact update
  | updateMetadata => exact update

end Agreement

section Stores

variable {B : Type} {P : Provenance B τ} {C : Crypto KR} {b : B}

/-- Nothing unexpected is asked, however the program ends. -/
abbrev Lasts {ε α : Type} (P : Provenance B τ) (p : Op KR τ ε α) (b : B) : Prop :=
  p.wp P.contract (fun _ _ => True) (fun _ _ => True) b

theorem lasts_recover {α : Type} {p : Op KR τ Unit α} {g : Unit → Op KR τ Unit α}
    (h : Lasts P p b) (hg : ∀ b, Lasts P (g ()) b) : Lasts P (p.recover g) b :=
  wp_recover h fun _ b _ => hg b

theorem lasts_announceChanged (id : LinkID) (p : Path) :
    Lasts P (announceChanged id p : Op KR τ Unit _) b := trivial

theorem wp_recordChildren (d : Path) (kr : KR) (links : List Link) :
    (recordChildren C d kr links : Op KR τ Unit Unit).wp P.contract (fun _ b' => b' = b)
      (fun _ _ => True) b := by
  induction links with
  | nil => exact rfl
  | cons l links ih =>
    rw [recordChildren]
    cases C.getName l kr with
    | none => exact ih
    | some name =>
      exact wp_ask_same (q := .setLinkPath l.linkID (child d name)) trivial (fun _ _ h => h)
        fun _ => ih

theorem lasts_diffAndEmit (hP : P.Lawful) (d : Path) (id : LinkID) (kr : KR)
    (old : List Link) : Lasts P (diffAndEmit C d id kr old) b := by
  rw [diffAndEmit]
  have hfetch : (ask (.listChildren id) >>= attempt : Op KR τ Unit _).wp P.contract
      (fun x b' => P.receives b x b') (fun _ _ => True) b := by
    apply wp_ask (q := .listChildren id) trivial
    intro r b' hn
    rcases r with e | x
    · exact trivial
    · exact hn
  apply wp_bind hfetch
  intro newLinks b₁ hr
  apply wp_bind (wp_recordChildren d kr newLinks.val)
  intro _ b₂ hb
  subst hb
  apply wp_ask_same (q := .setList d newLinks kr) (hP.received hr d).1 (fun _ _ h => h)
  intro _
  apply wp_ask_same (q := .rangeOrder) trivial (fun _ _ h => h)
  intro order₁
  exact wp_ask_same (q := .rangeOrder) trivial (fun _ _ h => h) fun order₂ => trivial

theorem lasts_diffCached (hP : P.Lawful) (d : Path) (id : LinkID)
    (old : Option (Tagged τ (List Link) × KR)) : Lasts P (diffCached C d id old) b := by
  unfold diffCached
  split_ifs
  · exact trivial
  · cases old with
    | none => exact trivial
    | some r =>
      apply wp_ask_same (q := .nodeKR id) trivial (fun _ _ h => h)
      intro kr
      cases kr with
      | none => exact trivial
      | some kr => exact lasts_diffAndEmit hP d id kr r.1.val

theorem lasts_announceCreated (link : Link) (d : Path) :
    Lasts P (announceCreated C link d) b := by
  rw [announceCreated]
  split_ifs
  · exact trivial
  · apply wp_ask_same (q := .nodeKR link.parentLinkID) trivial (fun _ _ h => h)
    intro kr
    cases kr with
    | none => exact trivial
    | some kr =>
      have hname : Lasts P (createdName C link kr : Op KR τ Unit _) b := by
        rw [createdName]
        cases C.getName link kr with
        | some name => exact trivial
        | none =>
          apply wp_ask (q := .getLink link.linkID) trivial
          intro r b₁ _
          rcases r with e | fullLink <;> exact trivial
      apply wp_bind hname
      intro name b₁ _
      cases name with
      | none => exact trivial
      | some name =>
        dsimp only
        split_ifs
        · exact trivial
        · exact wp_ask_same (q := .setLinkPath link.linkID (child d name)) trivial
            (fun _ _ h => h) fun _ => trivial

theorem lasts_announceTrashed (id : LinkID) (p : Path) :
    Lasts P (announceTrashed id p : Op KR τ Unit _) b := by
  rw [announceTrashed]
  split_ifs
  · exact trivial
  · have hfetch : Lasts P (ask (.getLink id) >>= attempt : Op KR τ Unit _) b := by
      apply wp_ask (q := .getLink id) trivial
      intro r b₁ _
      rcases r with e | link <;> exact trivial
    apply wp_bind hfetch
    intro link b₁ _
    split_ifs
    · exact wp_ask_same (q := .deleteLinkPath id) trivial (fun _ _ h => h) fun _ => trivial
    · exact trivial

section Invalidations

variable (hm : P.mayInvalidate)
include hm

theorem lasts_invalidatePath (p : Path) : Lasts P (invalidatePath p : Op KR τ Unit Unit) b := by
  apply wp_ask (q := .invalidateMeta p) hm
  intro _ b₁ _
  exact wp_ask_same (q := .deletePathLinks p) trivial (fun _ _ h => h) fun _ => trivial

theorem lasts_invalidateLinkID (id : LinkID) :
    Lasts P (invalidateLinkID id : Op KR τ Unit Unit) b := by
  apply wp_ask (q := .invalidateMetaLink id) hm
  intro _ b₁ _
  exact wp_ask_same (q := .deletePathLinkOf id) trivial (fun _ _ h => h) fun _ => trivial

theorem lasts_invalidateDeleted (link : Link) (p : Path) :
    Lasts P (invalidateDeleted link p : Op KR τ Unit Unit) b := by
  apply wp_bind (lasts_invalidatePath hm p)
  intro _ b₁ _
  split_ifs
  · exact lasts_invalidateLinkID hm _
  · exact trivial

theorem lasts_invalidateCreated (link : Link) (d : Path) :
    Lasts P (invalidateCreated link d : Op KR τ Unit Unit) b := by
  rw [invalidateCreated]
  split_ifs
  · exact lasts_invalidateLinkID hm _
  · exact lasts_invalidatePath hm d

theorem lasts_invalidateUpdated (link : Link) (p d : Path) :
    Lasts P (invalidateUpdated link p d : Op KR τ Unit Unit) b := by
  apply wp_bind (lasts_invalidatePath hm p)
  intro _ b₁ _
  have hlast : ∀ b, Lasts P
      (if p = [] then invalidateLinkID link.parentLinkID else pure () : Op KR τ Unit Unit) b := by
    intro b
    split_ifs
    · exact lasts_invalidateLinkID hm _
    · exact trivial
  dsimp only
  by_cases hd : d ≠ [] ∧ d ≠ p
  · rw [if_pos hd]
    exact wp_bind (lasts_invalidatePath hm d) fun _ b₂ _ => hlast b₂
  · rw [if_neg hd]
    exact hlast b₁

end Invalidations

theorem lasts_dropBlocks (id : LinkID) {next : Op KR τ Unit (List DriveEvent)}
    (h : Lasts P next b) : Lasts P (dropBlocks id next) b := by
  apply wp_ask_same (q := .invalidateBlocks id) trivial (fun _ _ h => h)
  intro found
  cases found with
  | true => exact h
  | false => exact trivial

theorem lasts_linkPath {ε α : Type} {id : LinkID} {f : Path → Op KR τ ε α}
    (h : ∀ p, Lasts P (f p) b) : Lasts P (ask (.linkPath id) >>= f) b :=
  wp_ask_same (q := .linkPath id) trivial (fun _ _ h => h) h

theorem lasts_handleDelete (hm : P.mayInvalidate) (link : Link) :
    Lasts P (handleDelete link : Op KR τ Unit _) b := by
  apply lasts_linkPath
  intro path
  apply lasts_linkPath
  intro parentPath
  apply wp_bind (lasts_invalidateDeleted hm link path)
  intro _ b₁ _
  apply lasts_dropBlocks
  split_ifs <;> exact trivial

/-- A stale listing is only compared with, whatever it is. -/
theorem lasts_getListStale {α : Type} {p : Path}
    {f : Option (Tagged τ (List Link) × KR) → Op KR τ Unit α} (h : ∀ r, Lasts P (f r) b) :
    Lasts P (ask (.getListStale p) >>= f) b := by
  apply wp_ask (q := .getListStale p) trivial
  intro r b₁ hr
  cases r with
  | none =>
    have hb : b₁ = b := hr
    rw [hb]
    exact h none
  | some r =>
    rw [hr.1]
    exact h (some r)

theorem lasts_handleCreate (hP : P.Lawful) (hm : P.mayInvalidate) (link : Link) :
    Lasts P (handleCreate C link) b := by
  apply lasts_linkPath
  intro parentPath
  apply lasts_getListStale
  intro old
  apply wp_bind (lasts_invalidateCreated hm link parentPath)
  intro _ b₁ _
  apply lasts_recover (lasts_announceCreated link parentPath)
  intro b₂
  apply lasts_recover (lasts_diffCached hP parentPath link.parentLinkID old)
  intro b₃
  exact lasts_announceChanged link.linkID parentPath

theorem lasts_handleUpdate (hP : P.Lawful) (hm : P.mayInvalidate) (link : Link) :
    Lasts P (handleUpdate C link) b := by
  apply lasts_linkPath
  intro path
  apply lasts_linkPath
  intro parentPath
  apply lasts_getListStale
  intro old
  apply lasts_getListStale
  intro oldParent
  apply wp_bind (lasts_invalidateUpdated hm link path parentPath)
  intro _ b₁ _
  apply lasts_dropBlocks
  apply lasts_recover (lasts_diffCached hP path link.linkID old)
  intro b₂
  apply lasts_recover (lasts_diffCached hP parentPath link.parentLinkID oldParent)
  intro b₃
  apply lasts_recover (lasts_announceTrashed link.linkID path)
  intro b₄
  exact lasts_announceChanged link.linkID _

/-- The poller stores nothing that it may not store. -/
theorem lasts_handle (hP : P.Lawful) (hm : P.mayInvalidate) (le : LinkEvent) :
    Lasts P (handle C le) b := by
  rw [handle]
  cases le.eventType with
  | delete => exact lasts_handleDelete hm le.link
  | create => exact lasts_handleCreate hP hm le.link
  | update => exact lasts_handleUpdate hP hm le.link
  | updateMetadata => exact lasts_handleUpdate hP hm le.link

end Stores

end ProtonDrive.PollerPrograms
