import ProtonDrive.ResponseFlow
import Mathlib.Algebra.Order.Ring.Int

/-!
# How old a record can be while online

Runs of `Stat` and `ListChildren` calls, every API call answered and no event delivered. A
response is stamped with the time it was received, and the stamp stays with what is cached. A
cached listing is no older than the TTL; a record made from it is cached anew, so that it is
bounded by the TTL only where its listing was not cached before.
-/

namespace ProtonDrive.StalenessBound
open SlashPaths KeyedMaps FallibleSteps DriveApi Programs Programs.Prog SessionPrograms
  ResponseFlow
open DriveSession hiding exec Answer

inductive Lookup
  | listChildren (p : Path)
  | stat (p : Path)
  deriving DecidableEq, Repr

variable {KR : Type}

section Runs

variable (C : Crypto KR) (w : World)

/-- The links a call returns, and the session it leaves. -/
def Lookup.run (x : Journaled KR ℤ) :
    Lookup → Outcome GoError (Journaled KR ℤ) (List Link)
  | .listChildren p =>
    ((SessionPrograms.listChildren C p).run (exec w w.now) x).image (fun r => r.1.val) id
  | .stat p => ((SessionPrograms.stat C p).run (exec w w.now) x).image (fun r => [r.1.val]) id

/-- The clock during a call that begins at `t` and takes at most `lag`. -/
def During (w : World) (t lag : ℤ) : Prop := ∀ n, t ≤ w.now n ∧ w.now n ≤ t + lag

/-- A session, and the links that were returned, each with the time of the call. -/
structure Log (KR : Type) where
  journal : Journaled KR ℤ
  returned : List (ℤ × Link)

/-- Make a call at a time. -/
def Log.call (s : Log KR) (t : ℤ) (c : Lookup) : Log KR :=
  match c.run C w s.journal with
  | ⟨.ok ls, x⟩ => ⟨x, s.returned ++ ls.map fun l => (t, l)⟩
  | ⟨.error _, x⟩ => ⟨x, s.returned⟩

/-- The logs of all runs, from an empty metadata cache, whose calls all meet `ok`. -/
inductive Reached (lag : ℤ) (ok : World → ℤ → Journaled KR ℤ → Lookup → Prop) : Log KR → Prop
  | start {x : Journaled KR ℤ} (ttl : ℤ) (ht : 0 ≤ ttl)
      (hm : x.sess.metaCache = MetaCache.newMetaCache ttl) : Reached lag ok ⟨x, []⟩
  | call {s : Log KR} {w : World} {t : ℤ} (c : Lookup) (hs : Reached lag ok s)
      (hr : w.Reliable) (ht : During w t lag) (hok : ok w t s.journal c) :
      Reached lag ok (s.call C w t c)

/-- Every link that was returned was in a response received later than `age` before. -/
def Log.Younger (age : ℤ) (s : Log KR) : Prop :=
  ∀ r ∈ s.returned, ∃ resp ∈ s.journal.received, r.2 ∈ resp.val ∧ r.1 - age < resp.stamp

/-- Every link that was returned was in a response received later than one TTL before. -/
def Log.Bounded (s : Log KR) : Prop := s.Younger s.journal.sess.metaCache.ttl

/-- A `Stat` that misses its own entry finds no listing of the parent in the cache that was
received before the call. -/
def ParentFetched (w : World) (t : ℤ) (x : Journaled KR ℤ) : Lookup → Prop
  | .listChildren _ => True
  | .stat p =>
    x.sess.metaCache.getStat (w.now x.sess.ticks) (absolute p) = none → absolute p ≠ ['/'] →
      ∀ n, (x.sess.metaCache.getList (w.now n) (dir (absolute p))).isSome →
        t ≤ x.listStamp (dir (absolute p))

end Runs

section Entries

variable {C : Crypto KR} {w : World} {t lag ttl : ℤ} {parent : Option Path}
  {log b : List (Tagged ℤ (List Link))} {x y : Journaled KR ℤ}

/-- A record is in a response of the log with its stamp. -/
def Within (b : List (Tagged ℤ (List Link))) (y : Tagged ℤ Link) : Prop :=
  ∃ z ∈ b, z.stamp = y.stamp ∧ y.val ∈ z.val

/-- Every entry is from a response of the log, which was received at most `lag` before the entry
was stored. -/
structure Recorded (lag : ℤ) (x : Journaled KR ℤ) : Prop where
  lists : ∀ p e, x.sess.metaCache.lists.lookup p = some e →
    ⟨e.links, x.listStamp p⟩ ∈ x.received ∧ e.cachedAt ≤ x.listStamp p + lag
  stats : ∀ p e, x.sess.metaCache.stats.lookup p = some e →
    Within x.received ⟨e.link, x.statStamp p⟩ ∧ e.cachedAt ≤ x.statStamp p + lag

/-- What a call that begins at `t` may store and expect. The listing of `parent`, if any, is
only expected from a response of this call. -/
def provenance (t lag ttl : ℤ) (parent : Option Path) :
    Provenance (List (Tagged ℤ (List Link))) ℤ where
  mayList b _ x := x ∈ b ∧ t ≤ x.stamp
  lists b p x := x ∈ b ∧ t - ttl - lag < x.stamp ∧ (parent = some p → t ≤ x.stamp)
  mayStat b _ y := Within b y ∧ t ≤ y.stamp
  stats b _ y := Within b y ∧ t - ttl - lag < y.stamp
  staleLists _ _ _ := True
  staleStats _ _ _ := True
  receives b x b' := b' = b ++ [x] ∧ t ≤ x.stamp
  mayInvalidate := False
  invalidates _ _ := False
  errors e := isOfflineError e = false

theorem provenance_lawful (t : ℤ) (parent : Option Path) (h : 0 < ttl + lag) :
    (provenance t lag ttl parent).Lawful where
  received := by
    rintro b x b' ⟨rfl, ht⟩ p
    have hx : x ∈ b ++ [x] := by simp
    exact ⟨⟨hx, ht⟩, hx, by omega, fun _ => ht⟩
  record := by
    rintro b x b' ⟨rfl, ht⟩ p l hl
    exact ⟨⟨x, by simp, rfl, hl⟩, ht⟩
  later := by
    rintro b x b' p y ⟨rfl, -⟩ ⟨⟨z, hz, hs, hv⟩, ht⟩
    exact ⟨⟨z, List.mem_append_left _ hz, hs, hv⟩, ht⟩
  stats := by
    rintro b p y ⟨hw, ht⟩
    exact ⟨hw, by omega⟩
  staleLists := by
    intro b p x e he ho
    rw [he] at ho
    cases ho
  staleStats := by
    intro b p y e he ho
    rw [he] at ho
    cases ho
  crypto := rfl
  notFound _ := rfl

/-- The state of a call that began at `t` with a log; what it has stored is from this call. -/
structure Holding (w : World) (t lag ttl : ℤ) (parent : Option Path)
    (log b : List (Tagged ℤ (List Link))) (x : Journaled KR ℤ) : Prop where
  recorded : Recorded lag x
  received : x.received = b
  grows : log <+: b
  ttl : x.sess.metaCache.ttl = ttl
  parent : ∀ p, parent = some p → ∀ n, (x.sess.metaCache.getList (w.now n) p).isSome →
    t ≤ x.listStamp p

/-- A query that leaves the metadata cache alone. -/
theorem Holding.update (h : Holding w t lag ttl parent log b x) {s : Session KR}
    (hs : s.metaCache = x.sess.metaCache) : Holding w t lag ttl parent log b (x.update s) := by
  refine ⟨⟨?_, ?_⟩, h.received, h.grows, ?_, ?_⟩
  · intro p e he
    exact h.recorded.lists p e (hs ▸ he)
  · intro p e he
    exact h.recorded.stats p e (hs ▸ he)
  · exact (congrArg MetaCache.Cache.ttl hs).trans h.ttl
  · intro p hp n hn
    exact h.parent p hp n (hs ▸ hn)

theorem callAPI_metaCache {α : Type} (w : World) (s : Session KR) (answer : Server → Option α) :
    (s.callAPI w answer).state.metaCache = s.metaCache := by
  rw [Session.callAPI_state]
  rfl

/-- Reliable calls fail only where the server knows no such object. -/
theorem callAPI_online {α : Type} (hw : w.Reliable) (s : Session KR)
    (answer : Server → Option α) {e : GoError} (h : (s.callAPI w answer).result = .error e) :
    isOfflineError e = false := by
  simp only [Session.callAPI, hw s.ticks] at h
  cases ha : answer (w.server s.ticks) with
  | none =>
    rw [ha] at h
    cases h
    rfl
  | some a =>
    rw [ha] at h
    cases h

/-- A response is received during the call. -/
theorem Holding.receive {α : Type} (h : Holding w t lag ttl parent log b x)
    (hd : During w t lag) (hw : w.Reliable) (links : α → List Link) (answer : Server → Option α) :
    match (x.receive (w.now x.sess.ticks) links (x.sess.callAPI w answer)) with
    | (.ok y, x') => t ≤ y.stamp ∧
      Holding w t lag ttl parent log (b ++ [⟨links y.val, y.stamp⟩]) x'
    | (.error e, x') => isOfflineError e = false ∧ Holding w t lag ttl parent log b x' := by
  have hm := callAPI_metaCache w x.sess answer
  have ho := fun e => callAPI_online (e := e) hw x.sess answer
  generalize x.sess.callAPI w answer = o at hm ho ⊢
  rcases o with ⟨e | a, s⟩
  · exact ⟨ho e rfl, h.update hm⟩
  · have hs : s.metaCache = x.sess.metaCache := hm
    refine ⟨(hd _).1, ⟨?_, ?_⟩, ?_, ?_, ?_, ?_⟩
    · intro p e he
      obtain ⟨hin, hage⟩ := h.recorded.lists p e (hs ▸ he)
      exact ⟨List.mem_append_left _ hin, hage⟩
    · intro p e he
      obtain ⟨⟨z, hz, hv⟩, hage⟩ := h.recorded.stats p e (hs ▸ he)
      exact ⟨⟨z, List.mem_append_left _ hz, hv⟩, hage⟩
    · exact congrArg (· ++ _) h.received
    · exact h.grows.trans (List.prefix_append _ _)
    · exact (congrArg MetaCache.Cache.ttl hs).trans h.ttl
    · intro p hp n hn
      exact h.parent p hp n (hs ▸ hn)

theorem holding_setList (h : Holding w t lag ttl parent log b x) (hd : During w t lag)
    {p : Path} {y : Tagged ℤ (List Link)} (kr : KR) (hy : y ∈ b ∧ t ≤ y.stamp) :
    Holding w t lag ttl parent log b
      (exec w w.now (.setList p y kr) x).2 := by
  have hnow := (hd x.sess.ticks).2
  refine ⟨⟨?_, h.recorded.stats⟩, h.received, h.grows, h.ttl, ?_⟩
  · intro q e he
    rw [lookup_setList] at he
    rw [listStamp_setList]
    split_ifs at he ⊢
    · cases he
      refine ⟨?_, by dsimp only; omega⟩
      have hin := hy.1
      rw [← h.received] at hin
      exact hin
    · exact h.recorded.lists q e he
  · intro q hq n hn
    rw [listStamp_setList]
    split_ifs with hqp
    · exact hy.2
    · apply h.parent q hq n
      rw [MetaCache.Cache.getList, lookup_setList, if_neg hqp] at hn
      exact hn

theorem holding_setStat (h : Holding w t lag ttl parent log b x) (hd : During w t lag)
    {p : Path} {y : Tagged ℤ Link} (kr : KR) (hy : Within b y ∧ t ≤ y.stamp) :
    Holding w t lag ttl parent log b
      (exec w w.now (.setStat p y kr) x).2 := by
  have hnow := (hd x.sess.ticks).2
  refine ⟨⟨h.recorded.lists, ?_⟩, h.received, h.grows, h.ttl, h.parent⟩
  intro q e he
  rw [lookup_setStat] at he
  rw [statStamp_setStat]
  split_ifs at he ⊢
  · cases he
    refine ⟨?_, by dsimp only; omega⟩
    have hin := hy.1
    rw [← h.received] at hin
    exact hin
  · exact h.recorded.stats q e he

/-- What the cache serves during the call is from a response of the last TTL. -/
theorem holding_getList (h : Holding w t lag ttl parent log b x) (hd : During w t lag)
    {p : Path} {r : Tagged ℤ (List Link) × KR}
    (hr : (exec w w.now (.getList p) x).1 = some r) :
    (provenance t lag ttl parent).lists b p r.1 := by
  have hnow := (hd x.sess.ticks).1
  obtain ⟨e, he, hage, rfl⟩ := getList_some hr
  obtain ⟨hin, hlag⟩ := h.recorded.lists p e he
  rw [h.received] at hin
  refine ⟨hin, ?_, ?_⟩
  · have httl := h.ttl
    dsimp only
    omega
  · intro hp
    apply h.parent p hp x.sess.ticks
    simp [MetaCache.Cache.getList, he, hage]

theorem holding_getStat (h : Holding w t lag ttl parent log b x) (hd : During w t lag)
    {p : Path} {r : Tagged ℤ Link × KR} (hr : (exec w w.now (.getStat p) x).1 = some r) :
    (provenance t lag ttl parent).stats b p r.1 := by
  have hnow := (hd x.sess.ticks).1
  obtain ⟨e, he, hage, rfl⟩ := getStat_some hr
  obtain ⟨hin, hlag⟩ := h.recorded.stats p e he
  rw [h.received] at hin
  refine ⟨hin, ?_⟩
  have httl := h.ttl
  dsimp only
  omega

theorem dropBlocks_metaCache {s s' : Session KR} {id : LinkID}
    (h : EventPoller.dropBlocks id s = some s') : s'.metaCache = s.metaCache := by
  simp only [EventPoller.dropBlocks, Option.map_eq_some_iff] at h
  obtain ⟨bc, -, rfl⟩ := h
  rfl

/-- The session and its world keep to the provenance of a call, as long as nothing is
invalidated. -/
theorem keeps (log : List (Tagged ℤ (List Link))) (hd : During w t lag) (hw : w.Reliable) :
    Prog.Keeps (provenance t lag ttl parent).contract (exec w w.now)
      (fun b (x : Journaled KR ℤ) => Holding w t lag ttl parent log b x) := by
  intro b x q h hok
  have call : ∀ answer : Server → Option Unit, Holding w t lag ttl parent log b
      (x.update (x.sess.callAPI w answer).state) := fun answer =>
    h.update (callAPI_metaCache w x.sess answer)
  cases q with
  | getShare =>
    have hm := callAPI_metaCache w x.sess fun srv => some srv.share
    have ho := fun e => callAPI_online (e := e) hw x.sess fun srv => some srv.share
    simp only [exec]
    generalize (x.sess.callAPI w fun srv => some srv.share) = o at hm ho ⊢
    rcases o with ⟨e | share, s⟩
    · exact ⟨b, ⟨rfl, ho e rfl⟩, h.update hm⟩
    · exact ⟨b, rfl, h.update hm⟩
  | getLink id =>
    have hr := h.receive hd hw (fun l => [l]) fun srv => srv.link id
    simp only [exec]
    generalize x.receive (w.now x.sess.ticks) (fun l => [l])
      (x.sess.callAPI w fun srv => srv.link id) = r at hr ⊢
    rcases r with ⟨e | y, x'⟩
    · exact ⟨b, ⟨rfl, hr.1⟩, hr.2⟩
    · exact ⟨_, ⟨rfl, hr.1⟩, hr.2⟩
  | listChildren id =>
    have hr := h.receive hd hw (fun ls => ls) fun srv => srv.children id
    simp only [exec]
    generalize x.receive (w.now x.sess.ticks) (fun ls => ls)
      (x.sess.callAPI w fun srv => srv.children id) = r at hr ⊢
    rcases r with ⟨e | y, x'⟩
    · exact ⟨b, ⟨rfl, hr.1⟩, hr.2⟩
    · exact ⟨_, ⟨rfl, hr.1⟩, hr.2⟩
  | createFolder req => exact ⟨b, rfl, call _⟩
  | deleteChildren req => exact ⟨b, rfl, call _⟩
  | getStat p =>
    cases hr : (exec w w.now (.getStat p) x).1 with
    | none => exact ⟨b, rfl, h.update rfl⟩
    | some r => exact ⟨b, ⟨rfl, holding_getStat h hd hr⟩, h.update rfl⟩
  | getList p =>
    cases hr : (exec w w.now (.getList p) x).1 with
    | none => exact ⟨b, rfl, h.update rfl⟩
    | some r => exact ⟨b, ⟨rfl, holding_getList h hd hr⟩, h.update rfl⟩
  | getStatStale p =>
    cases hr : (exec w w.now (.getStatStale p) x).1 with
    | none => exact ⟨b, rfl, h⟩
    | some r => exact ⟨b, ⟨rfl, trivial⟩, h⟩
  | getListStale p =>
    cases hr : (exec w w.now (.getListStale p) x).1 with
    | none => exact ⟨b, rfl, h⟩
    | some r => exact ⟨b, ⟨rfl, trivial⟩, h⟩
  | setList p y kr => exact ⟨b, rfl, holding_setList h hd kr hok⟩
  | setStat p y kr => exact ⟨b, rfl, holding_setStat h hd kr hok⟩
  | invalidateMeta p => exact hok.elim
  | invalidateMetaLink id => exact hok.elim
  | invalidateBlocks id =>
    simp only [exec]
    cases hs : EventPoller.dropBlocks id x.sess with
    | none => exact ⟨b, rfl, h⟩
    | some s => exact ⟨b, rfl, h.update (dropBlocks_metaCache hs)⟩
  | _ => first | exact ⟨b, rfl, h⟩ | exact ⟨b, rfl, h.update rfl⟩

theorem Recorded.holding (h : Recorded lag x)
    (hp : ∀ p, parent = some p → ∀ n, (x.sess.metaCache.getList (w.now n) p).isSome →
      t ≤ x.listStamp p) :
    Holding w t lag x.sess.metaCache.ttl parent x.received x.received x :=
  ⟨h, rfl, List.prefix_refl _, rfl, hp⟩

end Entries

section Bound

variable {C : Crypto KR} {w : World} {t lag : ℤ} {x y : Journaled KR ℤ} {c : Lookup}

/-- What a call leaves: entries from the log, which only grows. -/
structure Leaves (lag : ℤ) (x y : Journaled KR ℤ) : Prop where
  recorded : Recorded lag y
  grows : x.received <+: y.received
  ttl : y.sess.metaCache.ttl = x.sess.metaCache.ttl

theorem Holding.leaves {parent : Option Path} {b : List (Tagged ℤ (List Link))}
    (h : Holding w t lag x.sess.metaCache.ttl parent x.received b y) : Leaves lag x y :=
  ⟨h.recorded, h.received ▸ h.grows, h.ttl⟩

/-- Every link is in a response that is younger than `age` at time `t`. -/
def Recent (x : Journaled KR ℤ) (t age : ℤ) (ls : List Link) : Prop :=
  ∀ l ∈ ls, ∃ resp ∈ x.received, l ∈ resp.val ∧ t - age < resp.stamp

theorem run_listChildren (h : Recorded lag x) (hd : During w t lag) (hw : w.Reliable)
    (hpos : 0 < x.sess.metaCache.ttl + lag) (p : Path) :
    ((Lookup.listChildren p).run C w x).Sat
      (fun ls y => Leaves lag x y ∧ Recent y t (x.sess.metaCache.ttl + lag) ls)
      (fun _ y => Leaves lag x y) := by
  have hwp := wp_listChildren (C := C) (b := x.received) (provenance_lawful t none hpos) p
  have hrun := wp_run (keeps x.received hd hw) hwp (h.holding nofun)
  apply Outcome.Sat.image
  apply hrun.mono
  · rintro r y ⟨b, ⟨hin, hage, -⟩, hh⟩
    refine ⟨hh.leaves, ?_⟩
    intro l hl
    exact ⟨r.1, hh.received ▸ hin, hl, by omega⟩
  · rintro e y ⟨b, -, hh⟩
    exact hh.leaves

/-- A hit is served as it is; a miss, when the listing of the parent is fetched anew. -/
theorem run_stat (h : Recorded lag x) (hd : During w t lag) (hw : w.Reliable)
    (hpos : 0 < x.sess.metaCache.ttl + lag) (p : Path)
    (hp : ParentFetched w t x (.stat p)) :
    ((Lookup.stat p).run C w x).Sat
      (fun ls y => Leaves lag x y ∧ Recent y t (x.sess.metaCache.ttl + lag) ls)
      (fun _ y => Leaves lag x y) := by
  apply Outcome.Sat.image
  have recent : ∀ {r : Tagged ℤ Link × KR} {b : List (Tagged ℤ (List Link))}
      {y : Journaled KR ℤ} {parent : Option Path},
      (provenance t lag x.sess.metaCache.ttl parent).stats b (absolute p) r.1 →
      Holding w t lag x.sess.metaCache.ttl parent x.received b y →
      Leaves lag x y ∧ Recent y t (x.sess.metaCache.ttl + lag) [r.1.val] := by
    intro r b y parent hs hh
    obtain ⟨⟨z, hz, hstamp, hv⟩, hage⟩ := hs
    refine ⟨hh.leaves, ?_⟩
    intro l hl
    rw [List.mem_singleton.mp hl]
    exact ⟨z, hh.received ▸ hz, hv, by omega⟩
  cases hget : (exec w w.now (.getStat (absolute p)) x).1 with
  | some r =>
    have hhold : Holding w t lag x.sess.metaCache.ttl none x.received x.received x :=
      h.holding nofun
    have hyields : (stat C p).Yields (exec w w.now) x [.getStat (absolute p)]
        ⟨.ok r, x.update x.sess.tick⟩ := .ask (Prod.ext hget rfl) (.pure _ _)
    rw [hyields.2]
    exact recent (holding_getStat hhold hd hget) (hhold.update rfl)
  | none =>
    have hmiss : x.sess.metaCache.getStat (w.now x.sess.ticks) (absolute p) = none := by
      simpa [exec, tagWith] using hget
    let parent := if absolute p = ['/'] then none else some (dir (absolute p))
    have hlaw := provenance_lawful t parent hpos
    have hfetched : ∀ q, parent = some q → ∀ n, (x.sess.metaCache.getList (w.now n) q).isSome →
        t ≤ x.listStamp q := by
      intro q hq n hn
      simp only [parent] at hq
      split_ifs at hq with hroot
      cases hq
      exact hp hmiss hroot n hn
    have hwp := wp_stat (C := C) (b := x.received) (p := p) hlaw (by
      intro hroot b y hy l hl
      refine ⟨⟨y, hy.1, rfl, hl⟩, hy.2.2 ?_⟩
      simp only [parent]
      exact if_neg hroot)
    have hrun := wp_run (keeps x.received hd hw) hwp (h.holding hfetched)
    apply hrun.mono
    · rintro r y ⟨b, hs, hh⟩
      exact recent hs hh
    · rintro e y ⟨b, -, hh⟩
      exact hh.leaves

theorem recorded_start {ttl : ℤ} (hm : x.sess.metaCache = MetaCache.newMetaCache ttl) :
    Recorded lag x := by
  constructor
  · intro p e he
    rw [hm] at he
    cases he
  · intro p e he
    rw [hm] at he
    cases he

/-- Along a run every entry is from the log, and every link that was returned is younger than
one TTL and the lag. -/
theorem reached_younger {s : Log KR} (h : Reached C lag ParentFetched s) :
    Recorded lag s.journal ∧ 0 < s.journal.sess.metaCache.ttl ∧
      s.Younger (s.journal.sess.metaCache.ttl + lag) := by
  induction h with
  | start ttl ht hm =>
    refine ⟨recorded_start hm, ?_, fun r hr => nomatch hr⟩
    rw [hm, MetaCache.newMetaCache]
    dsimp only
    split_ifs with h₀
    · decide
    · omega
  | @call s w t c hs hr hd hok ih =>
    obtain ⟨hrec, hpos, hyoung⟩ := ih
    have hlag : 0 ≤ lag := by
      have h₀ := hd 0
      omega
    have hsat : (c.run C w s.journal).Sat
        (fun ls y => Leaves lag s.journal y ∧
          Recent y t (s.journal.sess.metaCache.ttl + lag) ls)
        (fun _ y => Leaves lag s.journal y) := by
      cases c with
      | listChildren p => exact run_listChildren hrec hd hr (by omega) p
      | stat p => exact run_stat hrec hd hr (by omega) p hok
    have old : ∀ {y : Journaled KR ℤ}, Leaves lag s.journal y → ∀ r ∈ s.returned,
        ∃ resp ∈ y.received, r.2 ∈ resp.val ∧ r.1 - (y.sess.metaCache.ttl + lag) < resp.stamp := by
      intro y hl r hr
      obtain ⟨resp, hresp, hin, hage⟩ := hyoung r hr
      exact ⟨resp, hl.grows.subset hresp, hin, by rw [hl.ttl]; exact hage⟩
    rw [Log.call]
    rcases hrun : c.run C w s.journal with ⟨e | ls, y⟩
    · rw [hrun] at hsat
      have hl : Leaves lag s.journal y := hsat
      exact ⟨hl.recorded, hl.ttl ▸ hpos, old hl⟩
    · rw [hrun] at hsat
      obtain ⟨hl, hrecent⟩ := hsat
      refine ⟨hl.recorded, hl.ttl ▸ hpos, ?_⟩
      intro r hr
      rcases List.mem_append.mp hr with hr | hr
      · exact old hl r hr
      · obtain ⟨l, hmem, rfl⟩ := List.mem_map.mp hr
        obtain ⟨resp, hresp, hin, hage⟩ := hrecent l hmem
        exact ⟨resp, hresp, hin, by rw [hl.ttl]; exact hage⟩

end Bound

section Staleness

variable {C : Crypto KR}

/-- In a run of calls at instants of time, where a `Stat` that misses finds no older listing of
the parent, every link that is returned was received less than one TTL before. -/
theorem staleness_bounded {s : Log KR} (h : Reached C 0 ParentFetched s) : s.Bounded := by
  have hyoung := (reached_younger h).2.2
  rw [add_zero] at hyoung
  exact hyoung

/-- A world that serves these links at one instant. -/
def instant (t : ℤ) (links : List Link) : World :=
  { World.steady (serverOf links) with now := fun _ => t }

theorem during_instant (t : ℤ) (links : List Link) : During (instant t links) t 0 :=
  fun _ => ⟨Int.le_refl t, by simp [instant]⟩

def rootFolder : Link := plainFolder "root" "" "root"

/-- A session that has just been opened. -/
def opened : Log Unit := ⟨⟨newSession "root" none, fun _ => 0, fun _ => 0, []⟩, []⟩

theorem reached_opened (lag : ℤ)
    (ok : World → ℤ → Journaled Unit ℤ → Lookup → Prop) :
    Reached Crypto.plain lag ok opened := .start 0 (by decide) rfl

theorem staleness_bounded_stat :
    let s := opened.call Crypto.plain (instant 0 [rootFolder, plainFile "f" "root" "f" 1 "r1"]) 0
      (.stat "/f".toList)
    s.returned = [(0, plainFile "f" "root" "f" 1 "r1")] ∧ s.Bounded :=
  ⟨by decide, staleness_bounded ((reached_opened 0 ParentFetched).call _ (fun _ => rfl)
    (during_instant _ _) (fun _ _ _ hn => nomatch hn))⟩

/-- The listing of the root is fetched, a `Stat` 20 seconds later makes a record from it, and 25
seconds after that the record is served, long after the file has changed. -/
theorem staleness_bounded_fails :
    ¬∀ s : Log Unit, Reached Crypto.plain 0 (fun _ _ _ _ => True) s → s.Bounded := by
  intro hall
  let f := plainFile "f" "root" "f" 1 "r1"
  let before := instant 0 [rootFolder, f]
  let later t := instant t [rootFolder, plainFile "f" "root" "f" 2 "r2"]
  have h₁ := (reached_opened 0 fun _ _ _ _ => True).call (w := before) (t := 0)
    (.listChildren ['/']) (fun _ => rfl) (during_instant _ _) trivial
  have h₂ := h₁.call (w := later 20000000000) (t := 20000000000) (.stat "/f".toList)
    (fun _ => rfl) (during_instant _ _) trivial
  have h₃ := h₂.call (w := later 45000000000) (t := 45000000000) (.stat "/f".toList)
    (fun _ => rfl) (during_instant _ _) trivial
  have hbad := hall _ h₃ (45000000000, f) (by decide)
  revert hbad
  decide

end Staleness

end ProtonDrive.StalenessBound
