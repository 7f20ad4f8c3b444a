import ProtonDrive.PollerPrograms

/-!
# Stores after an invalidation

Any number of `ListChildren`, `Stat` and `resolvePath` calls and the `handle` of the event
poller, interleaved query by query. A response is stamped with the tick at which it was
received. What is cached for a path that `handle` has invalidated is to be from a response
received after that. A call fetches and stores in separate queries, so this holds as long as no
call in flight still has an older response to store under the entries that are dropped.
-/

namespace ProtonDrive.StaleFills
open SlashPaths KeyedMaps DriveApi Programs Programs.Prog SessionPrograms ResponseFlow
  PollerPrograms
open DriveSession hiding exec Answer
open EventPoller (DriveEvent)

/-- When `handle` last invalidated a path, and when it last dropped the listing of one: an
invalidation drops the listings of the path and of its directory. -/
structure Drops where
  path : Path → ℕ
  listing : Path → ℕ
  own : ∀ q, path q ≤ listing q
  parent : ∀ q, path q ≤ listing (dir q)

namespace Drops

def never : Drops := ⟨fun _ => 0, fun _ => 0, fun _ => Nat.le_refl 0, fun _ => Nat.le_refl 0⟩

variable {d : Drops} {p q : Path} {n : ℕ}

/-- The invalidation of a path at a tick. -/
def drop (d : Drops) (p : Path) (n : ℕ) : Drops where
  path q := if q = p then max (d.path q) n else d.path q
  listing q := if q = p ∨ q = dir p then max (d.listing q) n else d.listing q
  own q := by
    have h := d.own q
    split_ifs <;> simp_all
    omega
  parent q := by
    have h := d.parent q
    split_ifs <;> simp_all
    omega

/-- Every invalidation was at or before a tick. -/
structure Before (d : Drops) (n : ℕ) : Prop where
  path : ∀ q, d.path q ≤ n
  listing : ∀ q, d.listing q ≤ n

end Drops

variable {T KR : Type}

section Machine

inductive Reader
  | listChildren (p : Path)
  | stat (p : Path)
  | resolvePath (p : Path)
  deriving DecidableEq, Repr

variable (C : Crypto KR)

/-- A call of an RPC connection; its result goes to the client. -/
def Reader.call : Reader → Op KR ℕ GoError Unit
  | .listChildren p => SessionPrograms.listChildren C p >>= fun _ => pure ()
  | .stat p => SessionPrograms.stat C p >>= fun _ => pure ()
  | .resolvePath p => SessionPrograms.resolvePath C p >>= fun _ => pure ()

/-- The session, what remains of the call on each connection and of the event at hand, and when
paths were invalidated. -/
structure State (T KR : Type) where
  journal : Journaled KR ℕ
  calls : T → Op KR ℕ GoError Unit
  poller : Op KR ℕ Unit (List DriveEvent)
  drops : Drops

variable (w : World)

/-- The path whose entries a query drops from the metadata cache. -/
def dropped (s : Session KR) : Query KR ℕ → Option Path
  | .invalidateMeta p => if p = [] then none else some p
  | .invalidateMetaLink id => s.metaCache.linkEntry (w.statOrder s.ticks) id
  | _ => none

namespace State

variable [DecidableEq T]

def opened (x : Journaled KR ℕ) : State T KR := ⟨x, fun _ => pure (), pure [], .never⟩

/-- A connection makes a call. -/
def start (t : T) (r : Reader) (s : State T KR) : State T KR :=
  { s with calls := Function.update s.calls t (r.call C) }

/-- The call of a connection makes its next query. -/
def read (t : T) (s : State T KR) : State T KR :=
  match s.calls t with
  | .ask q next =>
    let r := exec w (fun n => n) q s.journal
    { s with journal := r.2, calls := Function.update s.calls t (next r.1) }
  | _ => s

/-- The poller takes the next event. -/
def event (le : LinkEvent) (s : State T KR) : State T KR := { s with poller := handle C le }

/-- The poller makes its next query. -/
def poll (s : State T KR) : State T KR :=
  match s.poller with
  | .ask q next =>
    let r := exec w (fun n => n) q s.journal
    { s with
      journal := r.2
      poller := next r.1
      drops := match dropped w s.journal.sess q with
        | some p => s.drops.drop p s.journal.sess.ticks
        | none => s.drops }
  | _ => s

end State

/-- What may be stored and answered: for a path, responses since its last invalidation; for a
listing, since it was last dropped. A response is received after everything that has been
dropped. -/
def provenance : Provenance Drops ℕ where
  mayList d p x := d.listing p ≤ x.stamp
  lists d p x := d.listing p ≤ x.stamp
  mayStat d p y := d.path p ≤ y.stamp
  stats d p y := d.path p ≤ y.stamp
  staleLists d p x := d.listing p ≤ x.stamp
  staleStats d p y := d.path p ≤ y.stamp
  receives d x d' := d' = d ∧ d.Before x.stamp
  mayInvalidate := True
  invalidates _ _ := True
  errors _ := True

/-- When the poller is about to drop the entries of a path, no call in flight has an older
response that it may still store in their place. -/
def NothingHeld (s : State T KR) : Prop :=
  ∀ q next, s.poller = .ask q next → ∀ p, dropped w s.journal.sess q = some p →
    ∀ t, Lasts provenance (s.calls t) (s.drops.drop p s.journal.sess.ticks)

/-- What is cached for a path is from a response received since its last invalidation. -/
def State.Current (s : State T KR) : Prop := ∀ q,
  ((s.journal.sess.metaCache.stats.lookup q).isSome → s.drops.path q ≤ s.journal.statStamp q) ∧
  ((s.journal.sess.metaCache.lists.lookup q).isSome → s.drops.path q ≤ s.journal.listStamp q)

/-- The states of all interleavings, from any session, whose invalidations all meet `ok`. -/
inductive Reached [DecidableEq T] (ok : World → State T KR → Prop) : State T KR → Prop
  | opened (x : Journaled KR ℕ) : Reached ok (.opened x)
  | start {s : State T KR} (t : T) (r : Reader) (hs : Reached ok s) (hd : (s.calls t).done) :
      Reached ok (s.start C t r)
  | read {s : State T KR} (w : World) (t : T) (hs : Reached ok s) : Reached ok (s.read w t)
  | event {s : State T KR} (le : LinkEvent) (hs : Reached ok s) (hd : s.poller.done) :
      Reached ok (s.event C le)
  | poll {s : State T KR} (w : World) (hs : Reached ok s) (hok : ok w s) : Reached ok (s.poll w)

end Machine

section Steps

variable {C : Crypto KR} {w : World} {d : Drops} {x : Journaled KR ℕ}

theorem provenance_lawful : provenance.Lawful where
  received := by
    rintro d x d' ⟨rfl, hd⟩ p
    exact ⟨hd.listing p, hd.listing p⟩
  record := by
    rintro d x d' ⟨rfl, hd⟩ p l -
    exact hd.path p
  later := by
    rintro d x d' p y ⟨rfl, -⟩ h
    exact h
  stats h := h
  staleLists _ _ h := h
  staleStats _ _ h := h
  crypto := trivial
  notFound _ := trivial

/-- A new call holds nothing. -/
theorem lasts_call (r : Reader) (d : Drops) : Lasts provenance (r.call C) d := by
  cases r with
  | listChildren p =>
    apply wp_bind (wp_listChildren provenance_lawful p)
    exact fun _ _ _ => trivial
  | stat p =>
    have hstat := wp_stat (C := C) (b := d) (p := p) provenance_lawful
      fun _ d _ hy _ _ => Nat.le_trans (d.parent _) hy
    apply wp_bind hstat
    exact fun _ _ _ => trivial
  | resolvePath p =>
    apply wp_bind (wp_resolvePath provenance_lawful p)
    exact fun _ _ _ => trivial

theorem lasts_of_done {ε α : Type} {p : Op KR ℕ ε α} (h : p.done) (d : Drops) :
    Lasts provenance p d := by
  cases p with
  | ret a => exact trivial
  | fail e => exact trivial
  | ask q next => cases h

/-- What is cached is recent enough, and nothing was invalidated after now. -/
structure Kept (d : Drops) (x : Journaled KR ℕ) : Prop where
  stats : ∀ p e, x.sess.metaCache.stats.lookup p = some e → d.path p ≤ x.statStamp p
  lists : ∀ p e, x.sess.metaCache.lists.lookup p = some e → d.listing p ≤ x.listStamp p
  before : d.Before x.sess.ticks

theorem Drops.Before.mono {n m : ℕ} (h : d.Before n) (hnm : n ≤ m) : d.Before m :=
  ⟨fun q => Nat.le_trans (h.path q) hnm, fun q => Nat.le_trans (h.listing q) hnm⟩

/-- A query that stores nothing. -/
theorem Kept.update (h : Kept d x) {s : Session KR}
    (hm : s.metaCache.Below x.sess.metaCache) (ht : x.sess.ticks ≤ s.ticks) :
    Kept d (x.update s) :=
  ⟨fun p e he => h.stats p e (hm.stats p e he), fun p e he => h.lists p e (hm.lists p e he),
    h.before.mono ht⟩

theorem Kept.called (h : Kept d x) {α : Type} (answer : Server → Option α) :
    Kept d (x.update (x.sess.callAPI w answer).state) := by
  rw [Session.callAPI_state]
  exact h.update (.refl _) (Nat.le_succ _)

/-- A response is received now. -/
theorem Kept.receive (h : Kept d x) {α : Type} (links : α → List Link)
    (answer : Server → Option α) :
    match x.receive x.sess.ticks links (x.sess.callAPI w answer) with
    | (.ok y, x') => d.Before y.stamp ∧ Kept d x'
    | (.error _, x') => Kept d x' := by
  have hk := h.called (w := w) answer
  generalize x.sess.callAPI w answer = o at hk ⊢
  rcases o with ⟨e | a, s⟩
  · exact hk
  · exact ⟨h.before, hk.stats, hk.lists, hk.before⟩

theorem Kept.setList (h : Kept d x) {p : Path} {y : Tagged ℕ (List Link)} (kr : KR)
    (hy : d.listing p ≤ y.stamp) : Kept d (exec w (fun n => n) (.setList p y kr) x).2 := by
  refine ⟨h.stats, ?_, h.before.mono (Nat.le_succ _)⟩
  intro q e he
  rw [lookup_setList] at he
  rw [listStamp_setList]
  split_ifs at he ⊢ with hq
  · rw [hq]
    exact hy
  · exact h.lists q e he

theorem Kept.setStat (h : Kept d x) {p : Path} {y : Tagged ℕ Link} (kr : KR)
    (hy : d.path p ≤ y.stamp) : Kept d (exec w (fun n => n) (.setStat p y kr) x).2 := by
  refine ⟨?_, h.lists, h.before.mono (Nat.le_succ _)⟩
  intro q e he
  rw [lookup_setStat] at he
  rw [statStamp_setStat]
  split_ifs at he ⊢ with hq
  · rw [hq]
    exact hy
  · exact h.stats q e he

/-- A query of a program that may ask it keeps the cache recent. -/
theorem Kept.asked (h : Kept d x) {q : Query KR ℕ} (hok : provenance.contract.ok d q) :
    provenance.contract.next d q (exec w (fun n => n) q x).1 d ∧
      Kept d (exec w (fun n => n) q x).2 := by
  have later : ∀ {s : Session KR}, s.metaCache = x.sess.metaCache → x.sess.ticks ≤ s.ticks →
      Kept d (x.update s) := fun hm ht => h.update (hm ▸ .refl _) ht
  cases q with
  | getShare =>
    have hk := h.called (w := w) fun srv => some srv.share
    simp only [exec]
    generalize (x.sess.callAPI w fun srv => some srv.share) = o at hk ⊢
    rcases o with ⟨e | share, s⟩
    · exact ⟨⟨rfl, trivial⟩, hk⟩
    · exact ⟨rfl, hk⟩
  | getLink id =>
    have hr := h.receive (w := w) (fun l => [l]) fun srv => srv.link id
    simp only [exec]
    generalize x.receive x.sess.ticks (fun l => [l])
      (x.sess.callAPI w fun srv => srv.link id) = r at hr ⊢
    rcases r with ⟨e | y, x'⟩
    · exact ⟨⟨rfl, trivial⟩, hr⟩
    · exact ⟨⟨rfl, hr.1⟩, hr.2⟩
  | listChildren id =>
    have hr := h.receive (w := w) (fun ls => ls) fun srv => srv.children id
    simp only [exec]
    generalize x.receive x.sess.ticks (fun ls => ls)
      (x.sess.callAPI w fun srv => srv.children id) = r at hr ⊢
    rcases r with ⟨e | y, x'⟩
    · exact ⟨⟨rfl, trivial⟩, hr⟩
    · exact ⟨⟨rfl, hr.1⟩, hr.2⟩
  | createFolder req => exact ⟨rfl, h.called _⟩
  | deleteChildren req => exact ⟨rfl, h.called _⟩
  | getStat p =>
    refine ⟨?_, later rfl (Nat.le_succ _)⟩
    cases hr : (exec w (fun n => n) (.getStat p) x).1 with
    | none => exact rfl
    | some r =>
      obtain ⟨e, he, -, rfl⟩ := getStat_some hr
      exact ⟨rfl, h.stats p e he⟩
  | getList p =>
    refine ⟨?_, later rfl (Nat.le_succ _)⟩
    cases hr : (exec w (fun n => n) (.getList p) x).1 with
    | none => exact rfl
    | some r =>
      obtain ⟨e, he, -, rfl⟩ := getList_some hr
      exact ⟨rfl, h.lists p e he⟩
  | getStatStale p =>
    refine ⟨?_, h⟩
    cases hr : (exec w (fun n => n) (.getStatStale p) x).1 with
    | none => exact rfl
    | some r =>
      obtain ⟨e, he, rfl⟩ := getStatStale_some hr
      exact ⟨rfl, h.stats p e he⟩
  | getListStale p =>
    refine ⟨?_, h⟩
    cases hr : (exec w (fun n => n) (.getListStale p) x).1 with
    | none => exact rfl
    | some r =>
      obtain ⟨e, he, rfl⟩ := getListStale_some hr
      exact ⟨rfl, h.lists p e he⟩
  | setList p y kr => exact ⟨rfl, h.setList kr hok⟩
  | setStat p y kr => exact ⟨rfl, h.setStat kr hok⟩
  | invalidateMeta p =>
    exact ⟨trivial, h.update (MetaCache.Cache.invalidatePath_below ..) (Nat.le_refl _)⟩
  | invalidateMetaLink id =>
    exact ⟨trivial, h.update (MetaCache.Cache.invalidateLinkID_below ..) (Nat.le_succ _)⟩
  | invalidateBlocks id =>
    simp only [exec]
    cases hs : EventPoller.dropBlocks id x.sess with
    | none => exact ⟨rfl, h⟩
    | some s =>
      simp only [EventPoller.dropBlocks, Option.map_eq_some_iff] at hs
      obtain ⟨bc, -, rfl⟩ := hs
      exact ⟨rfl, later rfl (Nat.le_refl _)⟩
  | rangeOrder => exact ⟨rfl, later rfl (Nat.le_succ _)⟩
  | _ => first | exact ⟨rfl, h⟩ | exact ⟨rfl, later rfl (Nat.le_refl _)⟩

/-- Dropping what is cached for a path makes room for a later bound. -/
theorem Kept.drop (h : Kept d x) {p : Path} {s : Session KR}
    (hm : s.metaCache = x.sess.metaCache.dropEntry p) (ht : x.sess.ticks ≤ s.ticks) :
    Kept (d.drop p x.sess.ticks) (x.update s) := by
  refine ⟨?_, ?_, ?_, ?_⟩
  · intro q e he
    rw [Journaled.update, hm, MetaCache.Cache.stats_dropEntry] at he
    split_ifs at he with hq
    simp only [Drops.drop, if_neg hq]
    exact h.stats q e he
  · intro q e he
    rw [Journaled.update, hm, MetaCache.Cache.lists_dropEntry] at he
    split_ifs at he with hq
    simp only [Drops.drop, if_neg hq]
    exact h.lists q e he
  · intro q
    have hb := Nat.le_trans (h.before.path q) ht
    simp only [Drops.drop, Journaled.update]
    split_ifs
    · exact Nat.max_le.mpr ⟨hb, ht⟩
    · exact hb
  · intro q
    have hb := Nat.le_trans (h.before.listing q) ht
    simp only [Drops.drop, Journaled.update]
    split_ifs
    · exact Nat.max_le.mpr ⟨hb, ht⟩
    · exact hb

theorem Kept.forget (h : Kept d x) {q : Query KR ℕ} {p : Path}
    (hq : dropped w x.sess q = some p) :
    provenance.contract.next d q (exec w (fun n => n) q x).1 (d.drop p x.sess.ticks) ∧
      Kept (d.drop p x.sess.ticks) (exec w (fun n => n) q x).2 := by
  cases q with
  | invalidateMeta p' =>
    simp only [dropped] at hq
    split_ifs at hq with hp
    cases hq
    exact ⟨trivial, h.drop (if_neg hp) (Nat.le_refl _)⟩
  | invalidateMetaLink id =>
    have hm : x.sess.metaCache.invalidateLinkID (w.statOrder x.sess.ticks) id =
        x.sess.metaCache.dropEntry p := by
      rw [MetaCache.Cache.invalidateLinkID, show x.sess.metaCache.linkEntry _ id = some p from hq]
    refine ⟨trivial, ?_⟩
    apply h.drop hm
    exact Nat.le_succ _
  | _ => cases hq

end Steps

section Runs

variable {C : Crypto KR} {w : World} {s : State T KR}

/-- The cache is recent, and what remains of every call and of the event keeps it so. -/
structure Inv (s : State T KR) : Prop where
  kept : Kept s.drops s.journal
  calls : ∀ t, Lasts provenance (s.calls t) s.drops
  poller : Lasts provenance s.poller s.drops

theorem inv_opened (x : Journaled KR ℕ) : Inv (.opened x : State T KR) where
  kept := ⟨fun _ _ _ => Nat.zero_le _, fun _ _ _ => Nat.zero_le _,
    fun _ => Nat.zero_le _, fun _ => Nat.zero_le _⟩
  calls _ := trivial
  poller := trivial

theorem Inv.event (h : Inv s) (le : LinkEvent) : Inv (s.event C le) :=
  ⟨h.kept, h.calls, lasts_handle provenance_lawful trivial le⟩

theorem Inv.poll (h : Inv s) (w : World) (hok : NothingHeld w s) : Inv (s.poll w) := by
  have hp := h.poller
  simp only [State.poll]
  cases hc : s.poller with
  | ret a => exact h
  | fail e => exact h
  | ask q next =>
    rw [hc] at hp
    dsimp only
    cases hd : dropped w s.journal.sess q with
    | none =>
      obtain ⟨hn, hk⟩ := h.kept.asked (w := w) hp.1
      exact ⟨hk, h.calls, hp.2 _ _ hn⟩
    | some p =>
      obtain ⟨hn, hk⟩ := h.kept.forget hd
      exact ⟨hk, hok q next hc p hd, hp.2 _ _ hn⟩

theorem Inv.current (h : Inv s) : s.Current := by
  intro q
  constructor
  · intro hq
    obtain ⟨e, he⟩ := Option.isSome_iff_exists.mp hq
    exact h.kept.stats q e he
  · intro hq
    obtain ⟨e, he⟩ := Option.isSome_iff_exists.mp hq
    exact Nat.le_trans (s.drops.own q) (h.kept.lists q e he)

variable [DecidableEq T]

theorem Inv.start (h : Inv s) (t : T) (r : Reader) : Inv (s.start C t r) := by
  refine ⟨h.kept, ?_, h.poller⟩
  intro u
  simp only [State.start, Function.update_apply]
  split_ifs
  · exact lasts_call r s.drops
  · exact h.calls u

theorem Inv.read (h : Inv s) (w : World) (t : T) : Inv (s.read w t) := by
  have ht := h.calls t
  simp only [State.read]
  cases hc : s.calls t with
  | ret a => exact h
  | fail e => exact h
  | ask q next =>
    rw [hc] at ht
    obtain ⟨hn, hk⟩ := h.kept.asked (w := w) ht.1
    refine ⟨hk, ?_, h.poller⟩
    intro u
    dsimp only
    rw [Function.update_apply]
    split_ifs
    · exact ht.2 _ _ hn
    · exact h.calls u

theorem inv_reached (h : Reached C NothingHeld s) : Inv s := by
  induction h with
  | opened x => exact inv_opened x
  | start t r hs hd ih => exact ih.start t r
  | read w t hs ih => exact ih.read w t
  | event le hs hd ih => exact ih.event le
  | poll w hs hok ih => exact ih.poll w hok

end Runs

section Reads

variable [DecidableEq T] {C : Crypto KR} {w : World} {ok : World → State T KR → Prop}
  {s : State T KR}

/-- Where no call in flight has an older response to store when `handle` invalidates, whatever
is cached for an invalidated path was received since. -/
theorem no_stale_fill (h : Reached C NothingHeld s) : s.Current := (inv_reached h).current

theorem Reached.reads (h : Reached C ok s) (w : World) (t : T) (n : ℕ) :
    Reached C ok ((State.read w t)^[n] s) := by
  induction n generalizing s with
  | zero => exact h
  | succ n ih => exact ih (h.read w t)

omit [DecidableEq T] in
theorem poll_calls (w : World) (s : State T KR) : (s.poll w).calls = s.calls := by
  simp only [State.poll]
  cases s.poller <;> rfl

/-- An event that is handled while no call is in flight. -/
theorem Reached.polls (h : Reached C NothingHeld s) (hd : ∀ t, (s.calls t).done) (w : World)
    (n : ℕ) : Reached C NothingHeld ((State.poll w)^[n] s) := by
  induction n generalizing s with
  | zero => exact h
  | succ n ih =>
    have hheld : NothingHeld w s := fun _ _ _ _ _ t => lasts_of_done (hd t) _
    exact ih (h.poll w hheld) fun t => by rw [poll_calls]; exact hd t

def rootFolder : Link := plainFolder "root" "" "root"

/-- A session that has resolved its root. -/
def resolvedRoot : Session Unit :=
  (((newSession "root" none).setLinkPath "root" ['/']).setNodeKR "root" ()).setPathLink ['/'] "root"

def connected : State Unit Unit := .opened ⟨resolvedRoot, fun _ => 0, fun _ => 0, []⟩

/-- A file was created in the root. -/
def created : LinkEvent := ⟨.create, plainFile "f" "root" "f" 1 "r1"⟩

/-- The root is listed, the event is handled, and the root is listed again. -/
theorem no_stale_fill_relisted :
    let w := World.steady (serverOf [rootFolder])
    let listed := (State.read w ())^[5] (connected.start Crypto.plain () (.listChildren ['/']))
    let handled := (State.poll w)^[6] (listed.event Crypto.plain created)
    let s := (State.read w ())^[12] (handled.start Crypto.plain () (.listChildren ['/']))
    listed.journal.listStamp ['/'] < s.drops.path ['/'] ∧
      (s.journal.sess.metaCache.lists.lookup ['/']).isSome ∧ s.Current := by
  refine ⟨by decide +kernel, by decide +kernel, ?_⟩
  let w := World.steady (serverOf [rootFolder])
  have hlisted := ((Reached.opened _ : Reached Crypto.plain NothingHeld connected).start ()
    (.listChildren ['/']) rfl).reads w () 5
  have hhandled := (hlisted.event created rfl).polls (fun () => by decide +kernel) w 6
  exact no_stale_fill ((hhandled.start () (.listChildren ['/']) (by decide +kernel)).reads w () 12)

/-- The listing of the root is fetched, the poller handles the creation of a file in it, and
the listing is stored. -/
theorem no_stale_fill_fails :
    ¬∀ s : State Unit Unit, Reached Crypto.plain (fun _ _ => True) s → s.Current := by
  intro hall
  let w := World.steady (serverOf [rootFolder])
  have hfetched := ((Reached.opened _ : Reached Crypto.plain (fun _ _ => True) connected).start ()
    (.listChildren ['/']) rfl).reads w () 4
  have hevent := hfetched.event created rfl
  have hdropped := ((hevent.poll w trivial).poll w trivial).poll w trivial
  have hbad := (hall _ (hdropped.read w ()) ['/']).2 (by decide +kernel)
  revert hbad
  decide +kernel

end Reads

end ProtonDrive.StaleFills
