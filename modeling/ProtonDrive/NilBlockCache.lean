import ProtonDrive.ReadPrograms
import ProtonDrive.ReadHandles
import ProtonDrive.PollerPrograms
import ProtonDrive.SessionLinks

/-!
# Sessions without a block cache

`newSession` leaves the pointer to the block cache nil when the cache directory cannot be had.
Any number of `ReadFile` requests and the `handle` of the event poller are interleaved query by
query. Reads test the pointer wherever they use it; `handle` does not, so that without a block
cache the helper survives exactly as long as all link events are creations. Reads also take it for
granted that the link of a file has file properties.
-/

namespace ProtonDrive.NilBlockCache
open SlashPaths FallibleSteps DriveApi Programs Programs.Prog EventPoller ReadPrograms SessionLinks
open DriveSession hiding exec Answer Step
open FileReads (HandlerError ReadResult cachedBlock storeBlock)
open SessionPrograms (Query Answer Op Journaled)

variable {T KR : Type}

section Machine

variable (C : Crypto KR)

/-- The session, what remains of the request on each connection and of the event at hand. -/
structure State (T KR : Type) where
  journal : Journaled KR Unit
  reads : T → Option (ReadOp KR HandlerError ReadResult)
  poller : Op KR Unit Unit (List DriveEvent)

namespace State

def opened (s : Session KR) : State T KR :=
  ⟨⟨s, fun _ => (), fun _ => (), []⟩, fun _ => none, pure []⟩

variable [DecidableEq T]

/-- A connection asks for a range of a file. -/
def request (t : T) (path : Path) (offset length : ℤ) (s : State T KR) : State T KR :=
  { s with reads := Function.update s.reads t (some (readFile C path offset length)) }

/-- The request of a connection makes its next query. -/
def read (w : World) (t : T) (s : State T KR) : State T KR :=
  match s.reads t with
  | some (.ask q next) =>
    let r := exec C w q s.journal.sess
    { s with
      journal := s.journal.update r.2
      reads := Function.update s.reads t (some (next r.1)) }
  | _ => s

/-- The poller takes the next event. -/
def event (le : LinkEvent) (s : State T KR) : State T KR :=
  { s with poller := PollerPrograms.handle C le }

/-- The poller makes its next query. -/
def poll (w : World) (s : State T KR) : State T KR :=
  match s.poller with
  | .ask q next =>
    let r := SessionPrograms.exec w (fun _ => ()) q s.journal
    { s with journal := r.2, poller := next r.1 }
  | _ => s

end State

/-- The states of all interleavings of reads with the link events in `E`, over an API that answers
with the links in `L`. -/
inductive Reached [DecidableEq T] (L : Link → Prop) (E : LinkEvent → Prop) (s₀ : Session KR) :
    State T KR → Prop
  | opened : Reached L E s₀ (.opened s₀)
  | request {s : State T KR} (t : T) (path : Path) (offset length : ℤ) (hs : Reached L E s₀ s) :
      Reached L E s₀ (s.request C t path offset length)
  | read {s : State T KR} (w : World) (hw : Answers L w) (t : T) (hs : Reached L E s₀ s) :
      Reached L E s₀ (s.read C w t)
  | event {s : State T KR} (le : LinkEvent) (hs : Reached L E s₀ s) (hd : s.poller.done)
      (hE : E le) : Reached L E s₀ (s.event C le)
  | poll {s : State T KR} (w : World) (hw : Answers L w) (hs : Reached L E s₀ s) :
      Reached L E s₀ (s.poll w)

/-- Every read in flight goes on to return data or an error, and the event at hand is handled to
its end: none of them has crashed the helper, or will. -/
def State.Survives (L : Link → Prop) (s : State T KR) : Prop := ∀ w, Answers L w →
  (∀ t p, s.reads t = some p → ∀ fault,
    (p.run (exec C w) s.journal.sess).result = .error fault → ∃ e, fault = .go e) ∧
  ∃ evs, (s.poller.run (SessionPrograms.exec w fun _ => ()) s.journal).result = .ok evs

/-- A file has file properties. -/
def HasFileProperties (l : Link) : Prop := l.type = .file → l.fileProperties.isSome

end Machine

section Answers

variable {L : Link → Prop}

/-- What a read can be answered, with a block cache or without one. -/
def readAnswers (L : Link → Prop) (b : Bool) : (q : ReadQuery KR) → ReadAnswer q → Prop
  | .stat _, r => ∀ x, r = .ok x → L x.1
  | .hasBlocks, r => r = b
  | .getBlock _ _ _, r => b = true → r.isSome
  | .putBlock _ _ _ _, r => b = true → r.isSome
  | _, _ => True

/-- What the poller can be answered, with a block cache or without one. -/
def pollAnswers {τ : Type} (L : Link → Prop) (b : Bool) : (q : Query KR τ) → Answer q → Prop
  | .listChildren _, r => ∀ links, r = .ok links → ∀ l ∈ links.val, L l
  | .invalidateBlocks _, r => r = b
  | _, _ => True

/-- The poller caches only what it has been answered. -/
def pollContract {τ : Type} (L : Link → Prop) : Contract Bool (Query KR τ) Answer where
  ok _ q := match q with
    | .setList _ links _ => ∀ l ∈ links.val, L l
    | .setStat _ link _ => L link.val
    | _ => True
  next b q r b' := b' = b ∧ pollAnswers L b q r

/-- The block cache is there or not, and the cached links are of this kind. -/
structure Holds (L : Link → Prop) (b : Bool) (s : Session KR) : Prop where
  blocks : s.blocks.isSome = b
  carries : Carries L s.metaCache

theorem callAPI_holds {α : Type} {b : Bool} {s : Session KR} (h : Holds L b s) (w : World)
    (answer : Server → Option α) : Holds L b (s.callAPI w answer).state := by
  rw [Session.callAPI_state]
  exact ⟨h.blocks, h.carries⟩

/-- Reads never make the pointer nil, nor set it. -/
theorem keeps_reads (C : Crypto KR) {w : World} (hw : Answers L w) :
    Keeps (.fixed (readAnswers L)) (exec C w) (Holds L) := by
  rintro b s q hs -
  have hstat : ∀ p, Finds L (fun r => L r.1) (s.stat C w p) := fun p => stat_finds hw p hs.carries
  refine ⟨b, ⟨rfl, ?_⟩, ?_⟩
  · cases q with
    | stat p =>
      intro x hx
      have hfound := hstat p
      rcases ho : s.stat C w p with ⟨e | r, s'⟩
      · rw [exec, ho] at hx
        cases hx
      · rw [exec, ho] at hx
        rw [ho] at hfound
        cases hx
        exact hfound.1
    | getBlock | putBlock =>
      intro hb
      obtain ⟨bc, hb⟩ := Option.isSome_iff_exists.mp (hs.blocks.trans hb)
      simp only [exec, hb]
      rfl
    | hasBlocks => exact hs.blocks
    | _ => exact trivial
  · cases q with
    | stat p =>
      refine ⟨?_, Outcome.Sat.state ((hstat p).mono (fun _ _ h => h.2) fun _ _ h => h)⟩
      have hkept : (s.stat C w p).state.blocks = s.blocks :=
        (ReadHandles.stat_hasBlocks (C := C) (w := w) p (rfl : s.blocks = s.blocks)).state
      exact (congrArg Option.isSome hkept).trans hs.blocks
    | getRevision | fetchBlock => exact callAPI_holds hs w _
    | getBlock linkID revID idx =>
      cases hb : s.blocks with
      | none =>
        simp only [exec, hb]
        exact hs
      | some bc =>
        simp only [exec, hb, cachedBlock]
        exact ⟨(congrArg Option.isSome hb).symm.trans hs.blocks, hs.carries⟩
    | putBlock linkID revID idx data =>
      cases hb : s.blocks with
      | none =>
        simp only [exec, hb]
        exact hs
      | some bc =>
        simp only [exec, hb, storeBlock]
        exact ⟨(congrArg Option.isSome hb).symm.trans hs.blocks, hs.carries⟩
    | decrypt | hasBlocks => exact hs

theorem keeps_polls {τ : Type} {w : World} (hw : Answers L w) (stamp : ℕ → τ) :
    Keeps (pollContract L) (SessionPrograms.exec w stamp)
      fun b (x : Journaled KR τ) => Holds L b x.sess := by
  have receive : ∀ {α : Type} (b : Bool) (x : Journaled KR τ) (t : τ) (links : α → List Link)
      (answer : Server → Option α), Holds L b x.sess →
        Holds L b (x.receive t links (x.sess.callAPI w answer)).2.sess := by
    intro α b x t links answer hx
    have h := callAPI_holds hx w answer
    rcases hc : x.sess.callAPI w answer with ⟨e | a, s⟩ <;> rw [hc] at h <;> exact h
  rintro b x q hx hok
  refine ⟨b, ⟨rfl, ?_⟩, ?_⟩
  · cases q with
    | listChildren id =>
      intro links hlinks
      rcases Session.callAPI_cases w x.sess fun srv => srv.children id with
        ⟨ls, -, hls, hc⟩ | ⟨e, -, hc⟩
      · simp only [SessionPrograms.exec, hc] at hlinks
        cases hlinks
        exact hw.children _ id ls hls
      · simp only [SessionPrograms.exec, hc] at hlinks
        cases hlinks
    | invalidateBlocks id =>
      cases hb : x.sess.blocks with
      | none =>
        simp only [SessionPrograms.exec, dropBlocks, hb]
        exact (congrArg Option.isSome hb).symm.trans hx.blocks
      | some bc =>
        simp only [SessionPrograms.exec, dropBlocks, hb]
        exact (congrArg Option.isSome hb).symm.trans hx.blocks
    | _ => exact trivial
  · cases q with
    | getLink | listChildren => exact receive _ _ _ _ _ hx
    | getShare | createFolder | deleteChildren => exact callAPI_holds hx w _
    | setStat p l kr => exact ⟨hx.blocks, hx.carries.setStat _ p kr hok⟩
    | setList p ls kr => exact ⟨hx.blocks, hx.carries.setList _ p kr hok⟩
    | invalidateMeta p =>
      exact ⟨hx.blocks, hx.carries.below (MetaCache.Cache.invalidatePath_below _ p)⟩
    | invalidateMetaLink id =>
      exact ⟨hx.blocks, hx.carries.below (MetaCache.Cache.invalidateLinkID_below _ _ id)⟩
    | invalidateBlocks id =>
      cases hb : x.sess.blocks with
      | none =>
        simp only [SessionPrograms.exec, dropBlocks, hb, Option.map_none]
        exact hx
      | some bc =>
        simp only [SessionPrograms.exec, dropBlocks, hb]
        exact ⟨(congrArg Option.isSome hb).symm.trans hx.blocks, hx.carries⟩
    | _ => exact ⟨hx.blocks, hx.carries⟩

end Answers

section Reads

variable {C : Crypto KR} {L : Link → Prop} {ε α β : Type} {b : Bool}

/-- The program ends with data or an error: it never uses a block cache that is nil, nor file
properties that are. -/
abbrev Guarded (L : Link → Prop) (p : ReadOp KR ε α) (b : Bool) : Prop :=
  p.wp (.fixed (readAnswers L)) (fun _ b' => b' = b) (fun f b' => b' = b ∧ ∃ e, f = .go e) b

theorem guarded_fail {e : ε} : Guarded L (.fail (.go e) : ReadOp KR ε α) b := ⟨rfl, e, rfl⟩

theorem guarded_bind {p : ReadOp KR ε α} {f : α → ReadOp KR ε β} (h : Guarded L p b)
    (hf : ∀ a, Guarded L (f a) b) : Guarded L (p >>= f) b := by
  refine wp_bind h ?_
  rintro a b' rfl
  exact hf a

theorem guarded_ask {q : ReadQuery KR} {f : ReadAnswer q → ReadOp KR ε α}
    (hf : ∀ r, readAnswers L b q r → Guarded L (f r) b) :
    Guarded L (ReadPrograms.ask q >>= f) b := by
  refine ⟨trivial, ?_⟩
  rintro r b' ⟨rfl, hr⟩
  exact hf r hr

theorem guarded_deref {r : Option α} (h : r.isSome) :
    Guarded L (deref r : ReadOp KR ε α) b := by
  obtain ⟨a, rfl⟩ := Option.isSome_iff_exists.mp h
  exact rfl

theorem guarded_lookupBlock (linkID : LinkID) (revID : RevisionID) (idx : ℤ) :
    Guarded L (lookupBlock linkID revID idx : ReadOp KR ε _) b := by
  apply guarded_ask
  rintro (_ | _) rfl
  · exact rfl
  · exact guarded_ask fun _ h => guarded_deref (h rfl)

theorem guarded_keepBlock (linkID : LinkID) (revID : RevisionID) (idx : ℤ) (data : Bytes) :
    Guarded L (keepBlock linkID revID idx data : ReadOp KR ε _) b := by
  apply guarded_ask
  rintro (_ | _) rfl
  · exact rfl
  · exact guarded_ask fun _ h => guarded_deref (h rfl)

theorem guarded_readCached (hb : b = true) (linkID : LinkID) (revID : RevisionID) (n : ℕ)
    (idx : ℤ) (buf : Bytes) :
    Guarded L (readCached linkID revID n idx buf : ReadOp KR _ _) b := by
  induction n generalizing idx buf with
  | zero => exact rfl
  | succ n ih =>
    refine guarded_bind (guarded_ask fun _ h => guarded_deref (h hb)) fun r => ?_
    cases r with
    | none => exact guarded_fail
    | some data => exact ih (idx + 1) (buf ++ data)

theorem guarded_readFromCache (linkID : LinkID) (revID : RevisionID)
    (fileSize offset length : ℤ) :
    Guarded L (readFromCache linkID revID fileSize offset length : ReadOp KR _ _) b := by
  apply guarded_ask
  rintro (_ | _) rfl
  · exact guarded_fail
  · exact guarded_bind (guarded_readCached rfl ..) fun _ => rfl

theorem guarded_readBlock (sessionKey : SessionKey) (linkID : LinkID) (revID : RevisionID)
    (block : Block) : Guarded L (readBlock sessionKey linkID revID block : ReadOp KR _ _) b := by
  refine guarded_bind (guarded_lookupBlock ..) fun cached => ?_
  cases cached with
  | some cached => exact rfl
  | none =>
    apply guarded_ask
    rintro (e | enc) -
    · exact guarded_fail
    · apply guarded_ask
      rintro (_ | plain) -
      · exact guarded_fail
      · exact guarded_bind (guarded_keepBlock ..) fun _ => rfl

theorem guarded_readBlocks (sessionKey : SessionKey) (linkID : LinkID) (revID : RevisionID)
    (blocks : List Block) (buf : Bytes) :
    Guarded L (readBlocks sessionKey linkID revID blocks buf : ReadOp KR _ _) b := by
  induction blocks generalizing buf with
  | nil => exact rfl
  | cons block blocks ih => exact guarded_bind (guarded_readBlock ..) fun data => ih (buf ++ data)

theorem guarded_readFileContent {link : Link} (hlink : link.fileProperties.isSome) (parentKR : KR)
    (offset length : ℤ) : Guarded L (readFileContent C link parentKR offset length) b := by
  obtain ⟨props, hprops⟩ := Option.isSome_iff_exists.mp hlink
  simp only [readFileContent, hprops]
  split
  · exact guarded_fail
  · split
    · exact guarded_fail
    · apply guarded_ask
      rintro (e | rev) -
      · dsimp only
        split_ifs
        · exact guarded_readFromCache ..
        · exact guarded_fail
      · exact guarded_bind (guarded_readBlocks ..) fun _ => rfl

theorem guarded_readFile (hL : ∀ l, L l → HasFileProperties l) (path : Path)
    (offset length : ℤ) : Guarded L (readFile C path offset length) b := by
  apply guarded_ask
  rintro (e | ⟨link, parentKR⟩) hlink
  · exact guarded_fail
  · dsimp only
    split_ifs with htype
    · exact guarded_fail
    · have hprops : link.fileProperties.isSome := hL link (hlink _ rfl) (not_not.mp htype)
      refine guarded_bind (wp_recover (guarded_readFileContent hprops parentKR offset length) ?_)
        fun _ => rfl
      rintro - b' ⟨rfl, e, rfl⟩
      exact guarded_fail

end Reads

section Events

variable {C : Crypto KR} {L : Link → Prop} {τ α β : Type} {b : Bool}

/-- The program caches only what it has been answered, and goes on to its end or fails. -/
abbrev Attempted (L : Link → Prop) (p : Op KR τ Unit α) (b : Bool) : Prop :=
  p.wp (pollContract L) (fun _ b' => b' = b) (fun _ b' => b' = b) b

/-- The event is handled to its end. -/
abbrev Handled (L : Link → Prop) (p : Op KR τ Unit α) (b : Bool) : Prop :=
  p.wp (pollContract L) (fun _ b' => b' = b) (fun _ _ => False) b

theorem attempted_bind {p : Op KR τ Unit α} {f : α → Op KR τ Unit β} (h : Attempted L p b)
    (hf : ∀ a, Attempted L (f a) b) : Attempted L (p >>= f) b := by
  refine wp_bind h ?_
  rintro a b' rfl
  exact hf a

theorem attempted_ask {q : Query KR τ} {f : Answer q → Op KR τ Unit α}
    (hq : (pollContract L).ok b q) (hf : ∀ r, pollAnswers L b q r → Attempted L (f r) b) :
    Attempted L (SessionPrograms.ask q >>= f) b := by
  refine ⟨hq, ?_⟩
  rintro r b' ⟨rfl, hr⟩
  exact hf r hr

theorem attempted_recordChildren (d : Path) (kr : KR) (links : List Link) :
    Attempted L (PollerPrograms.recordChildren C d kr links : Op KR τ Unit Unit) b := by
  induction links with
  | nil => exact rfl
  | cons l links ih =>
    rw [PollerPrograms.recordChildren]
    cases C.getName l kr with
    | none => exact ih
    | some name => exact attempted_ask trivial fun _ _ => ih

theorem attempted_listChildren (id : LinkID) :
    (SessionPrograms.ask (.listChildren id) >>= PollerPrograms.attempt : Op KR τ Unit _).wp
      (pollContract L) (fun links b' => b' = b ∧ ∀ l ∈ links.val, L l) (fun _ b' => b' = b) b := by
  refine ⟨trivial, ?_⟩
  rintro (e | links) b' ⟨rfl, hlinks⟩
  · exact rfl
  · exact ⟨rfl, hlinks links rfl⟩

/-- What a comparison caches is the listing that it has been answered. -/
theorem attempted_diffCached (d : Path) (id : LinkID)
    (old : Option (SessionPrograms.Tagged τ (List Link) × KR)) :
    Attempted L (PollerPrograms.diffCached C d id old : Op KR τ Unit _) b := by
  unfold PollerPrograms.diffCached
  split_ifs
  · exact rfl
  · cases old with
    | none => exact rfl
    | some r =>
      refine attempted_ask trivial fun kr _ => ?_
      cases kr with
      | none => exact rfl
      | some kr =>
        refine wp_bind (attempted_listChildren id) ?_
        rintro links b' ⟨rfl, hlinks⟩
        refine attempted_bind (attempted_recordChildren d kr links.val) fun _ => ?_
        refine attempted_ask hlinks fun _ _ => ?_
        exact attempted_ask trivial fun _ _ => attempted_ask trivial fun _ _ => rfl

theorem attempted_announceCreated (link : Link) (parentPath : Path) :
    Attempted L (PollerPrograms.announceCreated C link parentPath : Op KR τ Unit _) b := by
  have hname : ∀ kr, Attempted L (PollerPrograms.createdName C link kr : Op KR τ Unit _) b := by
    intro kr
    rw [PollerPrograms.createdName]
    split
    · exact rfl
    · refine attempted_ask trivial fun answer _ => ?_
      cases answer <;> exact rfl
  rw [PollerPrograms.announceCreated]
  split_ifs
  · exact rfl
  · refine attempted_ask trivial fun kr _ => ?_
    cases kr with
    | none => exact rfl
    | some kr =>
      refine attempted_bind (hname kr) fun name => ?_
      cases name with
      | none => exact rfl
      | some name =>
        dsimp only
        split_ifs
        · exact rfl
        · exact attempted_ask trivial fun _ _ => rfl

theorem attempted_announceTrashed (id : LinkID) (p : Path) :
    Attempted L (PollerPrograms.announceTrashed id p : Op KR τ Unit _) b := by
  rw [PollerPrograms.announceTrashed]
  split_ifs
  · exact rfl
  · refine attempted_ask trivial fun answer _ => ?_
    cases answer with
    | error e => exact rfl
    | ok link =>
      refine attempted_bind (p := pure link) rfl fun link => ?_
      split_ifs
      · exact attempted_ask trivial fun _ _ => rfl
      · exact rfl

theorem handled_bind {p : Op KR τ Unit α} {f : α → Op KR τ Unit β} (h : Handled L p b)
    (hf : ∀ a, Handled L (f a) b) : Handled L (p >>= f) b := by
  refine wp_bind h ?_
  rintro a b' rfl
  exact hf a

theorem handled_ask {q : Query KR τ} {f : Answer q → Op KR τ Unit α}
    (hq : (pollContract L).ok b q) (hf : ∀ r, pollAnswers L b q r → Handled L (f r) b) :
    Handled L (SessionPrograms.ask q >>= f) b := by
  refine ⟨hq, ?_⟩
  rintro r b' ⟨rfl, hr⟩
  exact hf r hr

/-- An attempt may fail if another one follows. -/
theorem handled_recover {p : Op KR τ Unit α} {g : Unit → Op KR τ Unit α} (hp : Attempted L p b)
    (hg : Handled L (g ()) b) : Handled L (p.recover g) b := by
  refine wp_recover hp ?_
  rintro _ b' rfl
  exact hg

theorem handled_query {q : Query KR τ} (hq : (pollContract L).ok b q) :
    Handled L (SessionPrograms.ask q) b := by
  refine ⟨hq, ?_⟩
  rintro r b' ⟨rfl, -⟩
  exact rfl

theorem handled_invalidatePath (p : Path) :
    Handled L (PollerPrograms.invalidatePath p : Op KR τ Unit Unit) b := by
  refine handled_ask ?_ fun _ _ => handled_query ?_
  · exact trivial
  · exact trivial

theorem handled_invalidateLinkID (id : LinkID) :
    Handled L (PollerPrograms.invalidateLinkID id : Op KR τ Unit Unit) b := by
  refine handled_ask ?_ fun _ _ => handled_query ?_
  · exact trivial
  · exact trivial

theorem handled_dropBlocks (hb : b = true) (id : LinkID)
    {next : Op KR τ Unit (List DriveEvent)} (h : Handled L next b) :
    Handled L (PollerPrograms.dropBlocks id next) b := by
  refine handled_ask (q := .invalidateBlocks id) trivial ?_
  rintro r rfl
  rw [if_pos hb]
  exact h

theorem handled_announceChanged (id : LinkID) (p : Path) :
    Handled L (PollerPrograms.announceChanged id p : Op KR τ Unit _) b := rfl

theorem handled_handleDelete (hb : b = true) (link : Link) :
    Handled L (PollerPrograms.handleDelete link : Op KR τ Unit _) b := by
  refine handled_ask trivial fun path _ => handled_ask trivial fun parentPath _ =>
    handled_bind ?_ fun _ => ?_
  · refine handled_bind (handled_invalidatePath path) fun _ => ?_
    split_ifs
    · exact handled_invalidateLinkID _
    · exact rfl
  · apply handled_dropBlocks hb
    split_ifs
    · exact handled_announceChanged _ _
    · exact rfl

theorem handled_handleCreate (link : Link) :
    Handled L (PollerPrograms.handleCreate C link : Op KR τ Unit _) b := by
  refine handled_ask trivial fun parentPath _ => handled_ask trivial fun old _ =>
    handled_bind ?_ fun _ => ?_
  · rw [PollerPrograms.invalidateCreated]
    split_ifs
    · exact handled_invalidateLinkID _
    · exact handled_invalidatePath _
  · exact handled_recover (attempted_announceCreated link _)
      (handled_recover (attempted_diffCached _ _ _) (handled_announceChanged _ _))

theorem handled_handleUpdate (hb : b = true) (link : Link) :
    Handled L (PollerPrograms.handleUpdate C link : Op KR τ Unit _) b := by
  refine handled_ask trivial fun path _ => handled_ask trivial fun parentPath _ =>
    handled_ask trivial fun old _ => handled_ask trivial fun oldParent _ =>
      handled_bind ?_ fun _ => ?_
  · have last : Handled L (if path = [] then PollerPrograms.invalidateLinkID link.parentLinkID
        else pure () : Op KR τ Unit Unit) b := by
      split_ifs
      · exact handled_invalidateLinkID _
      · exact rfl
    refine handled_bind (handled_invalidatePath path) fun _ => ?_
    dsimp only
    split
    · exact handled_bind (handled_invalidatePath _) fun _ => last
    · exact last
  · refine handled_dropBlocks hb _ (handled_recover (attempted_diffCached _ _ _) ?_)
    exact handled_recover (attempted_diffCached _ _ _)
      (handled_recover (attempted_announceTrashed _ _) (handled_announceChanged _ _))

theorem handled_handle {le : LinkEvent} (h : b = true ∨ le.eventType = .create) :
    Handled L (PollerPrograms.handle C le : Op KR τ Unit _) b := by
  rw [PollerPrograms.handle]
  cases hle : le.eventType with
  | create => exact handled_handleCreate le.link
  | delete => exact handled_handleDelete (h.resolve_right (by simp [hle])) le.link
  | update | updateMetadata =>
    exact handled_handleUpdate (h.resolve_right (by simp [hle])) le.link

end Events

section Interleavings

variable {C : Crypto KR} {L : Link → Prop} {s : State T KR} {b : Bool}

/-- The block cache is there or not, the cached links are of this kind, and whatever is in flight
ends well. -/
structure Inv (L : Link → Prop) (b : Bool) (s : State T KR) : Prop where
  holds : Holds L b s.journal.sess
  reads : ∀ t p, s.reads t = some p → Guarded L p b
  poller : Handled L s.poller b

theorem inv_opened {s : Session KR} (hs : Carries L s.metaCache) :
    Inv L s.blocks.isSome (.opened s : State T KR) where
  holds := ⟨rfl, hs⟩
  reads _ _ h := by cases h
  poller := rfl

theorem inv_event {le : LinkEvent} (h : Inv L b s) (hle : b = true ∨ le.eventType = .create) :
    Inv L b (s.event C le) := ⟨h.holds, h.reads, handled_handle hle⟩

theorem inv_poll (h : Inv L b s) {w : World} (hw : Answers L w) : Inv L b (s.poll w) := by
  rw [State.poll]
  split
  · rename_i q next hp
    have hpoller := h.poller
    rw [hp] at hpoller
    obtain ⟨b', ⟨rfl, hanswer⟩, hholds⟩ :=
      keeps_polls hw (fun _ => ()) b s.journal q h.holds hpoller.1
    exact ⟨hholds, h.reads, hpoller.2 _ _ ⟨rfl, hanswer⟩⟩
  · exact h

theorem Inv.survives (h : Inv L b s) : s.Survives C L := by
  intro w hw
  constructor
  · intro t p hp fault he
    have hrun := wp_run (keeps_reads C hw) (h.reads t p hp) h.holds
    obtain ⟨b', ⟨-, hgo⟩, -⟩ := hrun.of_error he
    exact hgo
  · have hrun := wp_run (keeps_polls hw fun _ => ()) h.poller h.holds
    rcases hp : s.poller.run (SessionPrograms.exec w fun _ => ()) s.journal with ⟨e | evs, x⟩
    · rw [hp] at hrun
      obtain ⟨b', hfalse, -⟩ := hrun
      exact hfalse.elim
    · exact ⟨evs, rfl⟩

/-- Without a block cache, an event that is not a creation kills the helper. -/
theorem handle_none {le : LinkEvent} {s : Session KR} (w : World) (hb : s.blocks = none)
    (hle : le.eventType ≠ .create) : EventPoller.handle C w le s = none := by
  rw [Option.eq_none_iff_forall_ne_some]
  intro o ho
  rcases handle_cases ho with ⟨he, -⟩ | ⟨-, s₁, hs, -⟩ | ⟨-, s₁, hs, -⟩
  · exact hle he
  · obtain ⟨bc, hbc, -⟩ := dropBlocks_eq_some hs
    have hkept : (invalidateDeleted w le.link s).blocks = s.blocks := by
      rw [invalidateDeleted]
      split_ifs <;> rfl
    cases (hkept.trans hb).symm.trans hbc
  · obtain ⟨bc, hbc, -⟩ := dropBlocks_eq_some hs
    cases (invalidateUpdated_blocks.trans hb).symm.trans hbc

/-- An API that knows no link. -/
theorem answers_nothing : Answers L (World.steady (serverOf [])) where
  link n id l h := by cases h
  children n id ls h := by cases h

theorem not_survives_event {le : LinkEvent} {s : State T KR} (hb : s.journal.sess.blocks = none)
    (hle : le.eventType ≠ .create) : ¬ (s.event C le).Survives C L := by
  intro h
  obtain ⟨-, evs, hevs⟩ := h (World.steady (serverOf [])) answers_nothing
  have hseen := @PollerPrograms.seen_handle KR Unit C (World.steady (serverOf [])) (fun _ => ())
    le s.journal
  rw [handle_none _ hb hle] at hseen
  dsimp only [SessionPrograms.seen] at hseen
  rcases hp : (PollerPrograms.handle C le).run
    (SessionPrograms.exec (World.steady (serverOf [])) fun _ => ()) s.journal with ⟨e | evs', x⟩
  · cases hevs.symm.trans (congrArg Outcome.result hp)
  · rw [hp] at hseen
    cases hseen

variable [DecidableEq T]

/-- A read that finds a file without file properties kills the helper, block cache or not. -/
theorem not_survives_request {w : World} (hw : Answers L w) {path : Path} {link : Link}
    {parentKR : KR} (hstat : (s.journal.sess.stat C w path).result = .ok (link, parentKR))
    (htype : link.type = .file) (hprops : link.fileProperties = none) (t : T)
    (offset length : ℤ) : ¬ (s.request C t path offset length).Survives C L := by
  intro h
  have hrun : ((readFile C path offset length).run (exec C w) s.journal.sess).result =
      .error .nilFileProperties := by
    rw [readFile, run_ask, exec, hstat]
    dsimp only
    rw [if_neg (not_not.mpr htype), run_bind, run_mapError, readFileContent, hprops]
    rfl
  obtain ⟨e, he⟩ := (h w hw).1 t _ (Function.update_self ..) _ hrun
  cases he

/-- A connection goes on with a guarded program. -/
theorem Inv.update {p : ReadOp KR HandlerError ReadResult} (h : Inv L b s) (hp : Guarded L p b)
    (t t' : T) (p' : ReadOp KR HandlerError ReadResult)
    (ht : Function.update s.reads t (some p) t' = some p') : Guarded L p' b := by
  rw [Function.update_apply] at ht
  split_ifs at ht
  · cases ht
    exact hp
  · exact h.reads t' p' ht

theorem inv_request (hL : ∀ l, L l → HasFileProperties l) (h : Inv L b s) (t : T) (path : Path)
    (offset length : ℤ) : Inv L b (s.request C t path offset length) :=
  ⟨h.holds, h.update (guarded_readFile hL path offset length) t, h.poller⟩

theorem inv_read (h : Inv L b s) {w : World} (hw : Answers L w) (t : T) :
    Inv L b (s.read C w t) := by
  rw [State.read]
  split
  · rename_i q next hr
    obtain ⟨b', ⟨rfl, hanswer⟩, hholds⟩ := keeps_reads C hw b s.journal.sess q h.holds trivial
    exact ⟨hholds, h.update ((h.reads t _ hr).2 _ _ ⟨rfl, hanswer⟩) t, h.poller⟩
  · exact h

theorem inv_reached {E : LinkEvent → Prop} {s₀ : Session KR}
    (hL : ∀ l, L l → HasFileProperties l) (hs₀ : Carries L s₀.metaCache)
    (hE : s₀.blocks.isSome ∨ ∀ le, E le → le.eventType = .create) (hs : Reached C L E s₀ s) :
    Inv L s₀.blocks.isSome s := by
  induction hs with
  | opened => exact inv_opened hs₀
  | request t path offset length hs ih => exact inv_request hL ih t path offset length
  | read w hw t hs ih => exact inv_read ih hw t
  | event le hs hd hle ih => exact inv_event ih (hE.imp_right fun h => h le hle)
  | poll w hw hs ih => exact inv_poll ih hw

/-- Where the links of files have file properties, the helper survives all interleavings of reads
with some link events, exactly when it has a block cache or all these events are creations. -/
theorem survives_iff (C : Crypto KR) {L : Link → Prop} (hL : ∀ l, L l → HasFileProperties l)
    {s₀ : Session KR} (hs₀ : Carries L s₀.metaCache) (E : LinkEvent → Prop) :
    (∀ s : State T KR, Reached C L E s₀ s → s.Survives C L) ↔
      s₀.blocks.isSome ∨ ∀ le, E le → le.eventType = .create := by
  constructor
  · intro h
    cases hb : s₀.blocks with
    | some bc => exact .inl rfl
    | none =>
      refine .inr fun le hle => ?_
      by_contra hcreate
      exact not_survives_event hb hcreate (h _ (.event le .opened rfl hle))
  · exact fun hE s hs => (inv_reached hL hs₀ hE hs).survives

/-- In a fresh session without a block cache, all events are creations. -/
theorem survives_creations : (newSession "root" none : Session Unit).blocks = none ∧
    ∀ s : State Unit Unit, Reached Crypto.plain HasFileProperties (fun le => le.eventType = .create)
      (newSession "root" none) s → s.Survives Crypto.plain HasFileProperties :=
  ⟨rfl, (survives_iff Crypto.plain (fun _ h => h) (carries_newMetaCache 0) _).mpr
    (.inr fun _ h => h)⟩

/-- In a fresh session whose cache directory cannot be made, a file is deleted. -/
theorem survives_fails :
    ¬ ∀ s : State Unit Unit,
      Reached Crypto.plain HasFileProperties (fun _ => True) (newSession "root" none) s →
        s.Survives Crypto.plain HasFileProperties := by
  intro h
  obtain ⟨-, evs, hevs⟩ := h _
    (.event ⟨.delete, plainFile "F" "root" "f" 0 "rev1"⟩ .opened rfl trivial)
    (World.steady (serverOf [])) answers_nothing
  change (Except.error () : Except Unit _) = .ok evs at hevs
  cases hevs

end Interleavings

end ProtonDrive.NilBlockCache
