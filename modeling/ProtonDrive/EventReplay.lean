import ProtonDrive.ChangeNotices

/-!
# Replaying the notifications

A client keeps the set of names it shows for one directory and applies each notification to
it. The events of a history are handled in log order while the server is already in its
final state. Each event tells of some names that they are there or not; for every name the
last word counts.
-/

namespace ProtonDrive.EventReplay
open SlashPaths KeyedMaps FallibleSteps DriveApi DriveSession EventPoller ChangeNotices

section Histories

/-- One change of the links on the server. -/
inductive Change
  | create (l : Link)
  | rename (id : LinkID) (name : String)
  | move (id parent : LinkID) (name : String)
  | trash (id : LinkID)
  | restore (id : LinkID)
  | delete (id : LinkID)
  deriving DecidableEq, Repr

def amend (id : LinkID) (f : Link → Link) (links : List Link) : List Link :=
  links.map fun l => if l.linkID = id then f l else l

def Change.apply (links : List Link) : Change → List Link
  | .create l => links ++ [l]
  | .rename id name => amend id (fun l => { l with name := name }) links
  | .move id parent name =>
    amend id (fun l => { l with name := name, parentLinkID := parent }) links
  | .trash id => amend id (fun l => { l with state := .trashed }) links
  | .restore id => amend id (fun l => { l with state := .active }) links
  | .delete id => links.filter fun l => l.linkID ≠ id

def Change.eventType : Change → LinkEventType
  | .create _ => .create
  | .delete _ => .delete
  | _ => .updateMetadata

def Change.linkID : Change → LinkID
  | .create l => l.linkID
  | .rename id _ | .move id _ _ | .trash id | .restore id | .delete id => id

/-- The links that Delete events carry: only the id is reliable. -/
structure Remains where
  link : LinkID → Link
  linkID : ∀ id, (link id).linkID = id

/-- The event a change is logged with: it carries the link as the change leaves it; of a link
that is gone, it carries what remains. -/
def Change.event (remains : Remains) (links : List Link) (c : Change) : Option LinkEvent :=
  match c with
  | .delete id => some ⟨.delete, remains.link id⟩
  | c => ((c.apply links).find? (·.linkID = c.linkID)).map fun l => ⟨c.eventType, l⟩

/-- The links after a history, and its log. -/
def play (remains : Remains) (links : List Link) : List Change → List Link × List LinkEvent
  | [] => (links, [])
  | c :: cs =>
    let r := play remains (c.apply links) cs
    (r.1, (c.event remains links).toList ++ r.2)

/-- The server after a history. -/
def serverAfter (remains : Remains) (links : List Link) (history : List Change) : Server :=
  serverOf (play remains links history).1

/-- The log of a history. -/
def logOf (remains : Remains) (links : List Link) (history : List Change) : List LinkEvent :=
  (play remains links history).2

end Histories

section Clients

/-- The names a client shows after a notification; `final` is what the server lists. -/
def clientStep (final : Path → Bool) (d : Path) (shown : Path → Bool) (x : DriveEvent) :
    Path → Bool := fun n =>
  match x.type with
  | .created => x.path == child d n || shown n
  | .deleted => x.path != child d n && shown n
  | .changed => if x.path = d then final n else shown n

/-- What a notification tells about one name, if anything. -/
def wordOn (final : Path → Bool) (d n : Path) (x : DriveEvent) : Option Bool :=
  match x.type with
  | .created => if x.path = child d n then some true else none
  | .deleted => if x.path = child d n then some false else none
  | .changed => if x.path = d then some (final n) else none

/-- The last word of some notifications about one name. -/
def lastWord (final : Path → Bool) (d n : Path) (xs : List DriveEvent) : Option Bool :=
  xs.reverse.findSome? (wordOn final d n)

variable {final : Path → Bool} {d n : Path}

theorem clientStep_eq (shown : Path → Bool) (x : DriveEvent) :
    clientStep final d shown x n = (wordOn final d n x).getD (shown n) := by
  simp only [clientStep, wordOn]
  cases x.type with
  | created | deleted =>
    by_cases h : x.path = child d n <;> simp [h]
  | changed =>
    by_cases h : x.path = d <;> simp [h]

theorem lastWord_append (xs ys : List DriveEvent) :
    lastWord final d n (xs ++ ys) = (lastWord final d n ys).or (lastWord final d n xs) := by
  rw [lastWord, List.reverse_append, List.findSome?_append]
  rfl

/-- A client that replays notifications ends with the last word on every name. -/
theorem replay_eq (xs : List DriveEvent) (shown : Path → Bool) :
    xs.foldl (clientStep final d) shown n = (lastWord final d n xs).getD (shown n) := by
  induction xs generalizing shown with
  | nil => rfl
  | cons x xs ih =>
    have hsingle : lastWord final d n [x] = wordOn final d n x := by
      simp [lastWord]
    rw [List.foldl_cons, ih, clientStep_eq, ← List.singleton_append, lastWord_append, hsingle]
    cases lastWord final d n xs <;> rfl

/-- Notifications of one kind agree on every name. -/
theorem lastWord_of_agree {xs : List DriveEvent} {b : Bool}
    (h : ∀ x ∈ xs, wordOn final d n x = none ∨ wordOn final d n x = some b) :
    lastWord final d n xs = if ∃ x ∈ xs, wordOn final d n x = some b then some b else none := by
  split_ifs with hx
  · obtain ⟨x, hx, hs⟩ := hx
    cases hl : lastWord final d n xs with
    | none =>
      have hnone := List.findSome?_eq_none_iff.mp hl x (List.mem_reverse.mpr hx)
      cases hs.symm.trans hnone
    | some c =>
      obtain ⟨y, hy, hc⟩ := List.exists_of_findSome?_eq_some hl
      rcases h y (List.mem_reverse.mp hy) with hn | hb
      · cases hn.symm.trans hc
      · exact hc.symm.trans hb
  · refine List.findSome?_eq_none_iff.mpr fun x hm => ?_
    have hm' := List.mem_reverse.mp hm
    exact (h x hm').resolve_right fun hs => hx ⟨x, hm', hs⟩

theorem enqueue_all {xs queue : List DriveEvent}
    (h : queue.length + xs.length ≤ eventBufferSize) : xs.foldl enqueue queue = queue ++ xs := by
  induction xs generalizing queue with
  | nil => simp
  | cons x xs ih =>
    rw [List.length_cons] at h
    have hq : enqueue queue x = queue ++ [x] := by
      rw [enqueue, if_neg (by omega)]
    rw [List.foldl_cons, hq, ih (by simp; omega)]
    simp

end Clients

section Words

variable {KR : Type} (C : Crypto KR) (srv : Server) (final : Path → Bool) (d n : Path)

/-- What CHANGED at `q` tells: the client reads `d` again if it is `d` that changed. -/
def rereads (q : Path) : Option Bool := if q ≠ [] ∧ q = d then some (final n) else none

/-- What DELETED at `q` tells. -/
def removes (q : Path) : Option Bool := if q = child d n then some false else none

/-- What CREATED at `q` tells. -/
def adds (q : Path) : Option Bool := if q = child d n then some true else none

/-- Some name of `names` that `others` lacks has its place at `q`. -/
def missingAt (dirPath : Path) (names others : KeyMap Path LinkID) (q : Path) : Bool :=
  names.keys.any fun m => child dirPath m == q && (others.lookup m).isNone

/-- What a comparison tells of `n`. -/
def comparisonTells (c : Comparison KR) (new : List Link) : Option Bool :=
  let oldNames := decryptNames C c.kr c.old
  let newNames := decryptNames C c.kr new
  if missingAt c.dirPath oldNames newNames (child d n) then some false
  else if missingAt c.dirPath newNames oldNames (child d n) then some true
  else none

/-- A comparison together with the server's listing. -/
def compared (s : Session KR) (dirPath : Path) (id : LinkID) :
    Option (Comparison KR × List Link) :=
  (comparison s dirPath id).bind fun c => (srv.children id).map fun new => (c, new)

/-- The name under which a created link can be announced. -/
def createdAs (s : Session KR) (link : Link) : Option Path :=
  if s.linkPath link.parentLinkID = [] then none
  else (s.nodeKRs.lookup link.parentLinkID).bind fun kr =>
    ((C.getName link kr).or ((srv.link link.linkID).bind fun l => C.getName l kr)).filter (· ≠ [])

def inTrash (id : LinkID) : Bool :=
  (srv.link id).any fun l => l.state = .trashed ∨ l.state = .deleted

/-- What the handling of an event tells of the name `n` of `d`: decided by the paths,
listings and keyrings on record and by what the server holds. -/
def tells (s : Session KR) (le : LinkEvent) : Option Bool :=
  let path := s.linkPath le.link.linkID
  let parentPath := s.linkPath le.link.parentLinkID
  match le.eventType with
  | .delete => if path = [] then rereads final d n parentPath else removes d n path
  | .create => match createdAs C srv s le.link with
    | some name => adds d n (child parentPath name)
    | none => match compared srv s parentPath le.link.parentLinkID with
      | some r => comparisonTells C d n r.1 r.2
      | none => rereads final d n parentPath
  | .update | .updateMetadata =>
    match (compared srv s path le.link.linkID).or
        (compared srv s parentPath le.link.parentLinkID) with
    | some r => comparisonTells C d n r.1 r.2
    | none =>
      if path = [] then rereads final d n parentPath
      else if inTrash srv le.link.linkID then removes d n path
      else rereads final d n path

variable {C srv final d n} {w : World} {s s₁ : Session KR}

theorem lastWord_changed (id : LinkID) (q : Path) :
    lastWord final d n (if q = [] then [] else [⟨.changed, id, q⟩]) = rereads final d n q := by
  simp only [rereads]
  split_ifs with h h' h'
  · exact absurd h h'.1
  · rfl
  · simp [lastWord, wordOn, h'.2]
  · have hq : q ≠ d := fun hq => h' ⟨h, hq⟩
    simp [lastWord, wordOn, hq]

theorem lastWord_namesOnlyIn {order : RangeOrder Path} {type : EventType} {dirPath : Path}
    {names others : KeyMap Path LinkID} (ht : type ≠ .changed) :
    lastWord final d n (namesOnlyIn order type dirPath names others) =
      if missingAt dirPath names others (child d n) then some (type == .created) else none := by
  have hword : ∀ x ∈ namesOnlyIn order type dirPath names others,
      wordOn final d n x = if x.path = child d n then some (type == .created) else none := by
    intro x hx
    obtain ⟨m, id, -, -, rfl⟩ := mem_namesOnlyIn.mp hx
    cases type with
    | changed => exact absurd rfl ht
    | created | deleted => rfl
  rw [lastWord_of_agree (b := type == .created)]
  · congr 1
    simp only [missingAt, List.any_eq_true, Bool.and_eq_true, beq_iff_eq, Option.isNone_iff_eq_none,
      mem_keys_iff, eq_iff_iff]
    constructor
    · rintro ⟨x, hx, hw⟩
      rw [hword x hx] at hw
      obtain ⟨m, id, hid, ho, rfl⟩ := mem_namesOnlyIn.mp hx
      split_ifs at hw with hm
      exact ⟨m, ⟨id, hid⟩, hm, ho⟩
    · rintro ⟨m, ⟨id, hid⟩, hm, ho⟩
      refine ⟨_, mem_namesOnlyIn.mpr ⟨m, id, hid, ho, rfl⟩, ?_⟩
      rw [hword _ (mem_namesOnlyIn.mpr ⟨m, id, hid, ho, rfl⟩), if_pos hm]
  · intro x hx
    rw [hword x hx]
    split_ifs
    · exact .inr rfl
    · exact .inl rfl

theorem lastWord_diffEvents (tick : ℕ) (c : Comparison KR) (new : List Link) :
    lastWord final d n (diffEvents C w tick c.dirPath c.kr c.old new) =
      comparisonTells C d n c new := by
  simp only [diffEvents, comparisonTells]
  rw [lastWord_append, lastWord_namesOnlyIn (by decide), lastWord_namesOnlyIn (by decide)]
  split_ifs <;> rfl

/-- One comparison against an unchanging server. -/
theorem diffCached_compared (hsrv : w.Serves srv) (hw : w.Reliable)
    (hk : s₁.nodeKRs = s.nodeKRs) (q : Path) (id : LinkID) :
    (diffCached C w q id (s.metaCache.getListStale q) s₁).Sat
      (fun evs _ => ∃ r, compared srv s q id = some r ∧
        ∀ final d n, lastWord final d n evs = comparisonTells C d n r.1 r.2)
      (fun _ s₂ => compared srv s q id = none ∧ s₂.nodeKRs = s.nodeKRs ∧ Ticked s₁ s₂) := by
  have hdiff : diffable q id (s.metaCache.getListStale q) s₁ =
      diffable q id (s.metaCache.getListStale q) s := by
    simp only [diffable]
    rw [hk]
  refine (diffCached_spec (hw _) q id _).mono ?_ ?_
  · rintro _ s₂ ⟨r, new, hr, hn, rfl, -⟩
    rw [hdiff] at hr
    rw [hsrv] at hn
    refine ⟨(⟨q, id, r.1, r.2⟩, new), by simp [compared, comparison, hr, hn], ?_⟩
    exact fun _ _ _ => lastWord_diffEvents _ ⟨q, id, r.1, r.2⟩ new
  · rintro _ s₂ (⟨rfl, hn⟩ | ⟨rfl, -, hn⟩)
    · rw [hdiff] at hn
      exact ⟨by simp [compared, comparison, hn], hk, .inl rfl⟩
    · rw [hsrv] at hn
      exact ⟨by simp [compared, hn], hk, .inr rfl⟩

theorem createdName_serves (hsrv : w.Serves srv) (hw : w.Reliable) (link : Link) (kr : KR) :
    (createdName C w link kr s).1 =
      (C.getName link kr).or ((srv.link link.linkID).bind fun l => C.getName l kr) := by
  simp only [createdName]
  cases C.getName link kr with
  | some m => rfl
  | none =>
    rcases Session.callAPI_cases w s (fun srv => srv.link link.linkID) with
      ⟨l, -, hl, hc⟩ | ⟨e, hn, hc⟩
    · rw [hsrv] at hl
      rw [hc, hl]
      rfl
    · have hnone := hn (hw _)
      rw [hsrv] at hnone
      rw [hc, hnone]
      rfl

theorem announcedName_serves (hsrv : w.Serves srv) (hw : w.Reliable)
    (hk : s₁.nodeKRs = s.nodeKRs) (link : Link) :
    announcedName C w link (s.linkPath link.parentLinkID) s₁ = createdAs C srv s link := by
  simp only [announcedName, createdAs]
  simp only [createdName_serves hsrv hw, hk]

theorem announceDelete_tells {le : LinkEvent} (hdel : le.eventType = .delete) :
    (announceDelete le.link s s₁).Sat
      (fun evs _ => lastWord final d n evs = tells C srv final d n s le) (fun _ _ => False) := by
  simp only [announceDelete, tells]
  simp only [hdel]
  split_ifs with hp
  · exact lastWord_changed _ _
  · change lastWord final d n [_] = _
    simp only [lastWord, wordOn, removes, List.reverse_singleton, List.findSome?_singleton]

theorem announceCreate_tells (hsrv : w.Serves srv) (hw : w.Reliable)
    (hk : s₁.nodeKRs = s.nodeKRs) {le : LinkEvent} (hcr : le.eventType = .create) :
    (announceCreate C w le.link s s₁).Sat
      (fun evs _ => lastWord final d n evs = tells C srv final d n s le) (fun _ _ => False) := by
  have hname := announcedName_serves (C := C) hsrv hw hk le.link
  simp only [announceCreate, tells]
  simp only [hcr]
  refine Outcome.Sat.recover ((announceCreated_spec le.link _ s₁).mono ?_ fun _ _ h => h) ?_
  · rintro _ _ ⟨m, s₂, hm, -, -, rfl, -⟩
    rw [hname] at hm
    simp only [hm, lastWord, wordOn, adds, List.reverse_singleton, List.findSome?_singleton]
  rintro _ s₂ ⟨ht, hnone⟩
  rw [hname] at hnone
  simp only [hnone]
  have hk₂ : s₂.nodeKRs = s.nodeKRs := ht.kept.nodeKRs.trans hk
  refine Outcome.Sat.recover ((diffCached_compared hsrv hw hk₂ _ _).mono ?_ fun _ _ h => h) ?_
  · rintro evs _ ⟨r, hr, he⟩
    simp only [hr, he]
  · rintro _ s₃ ⟨hr, -, -⟩
    simp only [hr]
    exact lastWord_changed _ _

theorem announceUpdate_tells (hsrv : w.Serves srv) (hw : w.Reliable)
    (hk : s₁.nodeKRs = s.nodeKRs) {le : LinkEvent}
    (hu : le.eventType ≠ .create ∧ le.eventType ≠ .delete) :
    (announceUpdate C w le.link s s₁).Sat
      (fun evs _ => lastWord final d n evs = tells C srv final d n s le) (fun _ _ => False) := by
  have htells : tells C srv final d n s le =
      match (compared srv s (s.linkPath le.link.linkID) le.link.linkID).or
        (compared srv s (s.linkPath le.link.parentLinkID) le.link.parentLinkID) with
      | some r => comparisonTells C d n r.1 r.2
      | none =>
        if s.linkPath le.link.linkID = [] then rereads final d n (s.linkPath le.link.parentLinkID)
        else if inTrash srv le.link.linkID then removes d n (s.linkPath le.link.linkID)
        else rereads final d n (s.linkPath le.link.linkID) := by
    simp only [tells]
    cases ht : le.eventType with
    | create => exact absurd ht hu.1
    | delete => exact absurd ht hu.2
    | update | updateMetadata => rfl
  rw [htells]
  simp only [announceUpdate]
  refine Outcome.Sat.recover ((diffCached_compared hsrv hw hk _ _).mono ?_ fun _ _ h => h) ?_
  · rintro evs _ ⟨r, hr, he⟩
    simp only [hr, Option.some_or, he]
  rintro _ s₂ ⟨hr₂, hk₂, -⟩
  simp only [hr₂, Option.none_or]
  refine Outcome.Sat.recover ((diffCached_compared hsrv hw hk₂ _ _).mono ?_ fun _ _ h => h) ?_
  · rintro evs _ ⟨r, hr, he⟩
    simp only [hr, he]
  rintro _ s₃ ⟨hr₃, -, -⟩
  simp only [hr₃]
  refine Outcome.Sat.recover ((announceTrashed_spec ..).mono ?_ fun _ _ h => h.2) ?_
  · rintro _ _ ⟨l, hp, -, hl, hst, rfl, -⟩
    rw [hsrv] at hl
    have htrash : inTrash srv le.link.linkID = true := by simpa [inTrash, hl] using hst
    simp only [hp, htrash, if_true, if_false, lastWord, wordOn, removes, List.reverse_singleton,
      List.findSome?_singleton]
  · rintro _ s₄ hno
    apply (lastWord_changed _ _).trans
    by_cases hp : s.linkPath le.link.linkID = []
    · simp only [hp, if_true]
    · have htrash : inTrash srv le.link.linkID = false := by
        cases hl : srv.link le.link.linkID with
        | none => simp [inTrash, hl]
        | some l => simpa [inTrash, hl] using hno hp (hw _) l (hsrv _ ▸ hl)
      simp only [hp, htrash, if_false]
      rfl

/-- The notifications of one event end with its word on every name. -/
theorem handle_tells (hsrv : w.Serves srv) (hw : w.Reliable) {le : LinkEvent} {o : Attempt KR}
    (h : handle C w le s = some o) :
    o.Sat (fun evs _ => lastWord final d n evs = tells C srv final d n s le)
      (fun _ _ => False) := by
  rcases handle_cases h with ⟨hcr, rfl⟩ | ⟨hdel, s₁, -, rfl⟩ | ⟨hu, s₁, hs₁, rfl⟩
  · exact announceCreate_tells hsrv hw nodeKRs_invalidateCreated hcr
  · exact announceDelete_tells hdel
  · refine announceUpdate_tells hsrv hw ?_ hu
    obtain ⟨bc, -, rfl⟩ := dropBlocks_eq_some hs₁
    exact nodeKRs_invalidateUpdated

end Words

end ProtonDrive.EventReplay
