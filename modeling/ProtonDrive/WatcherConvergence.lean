import ProtonDrive.AccountWatcher

/-!
# The account watcher and the keyring

The daemon together with the keyring it watches: the keyring changes at any time, its service
answers a search with the items it holds then or lets it fail, and signals every change to whoever
listens, and the setup wizard announces a change some time after it was made.
-/

namespace ProtonDrive.WatcherConvergence
open KeyedMaps Alternation AccountWatcher

/-- `password_searchv` with the attributes `reload` asks for: one item for each account. -/
def passwordSearch (keyring : List Attributes) : List Attributes :=
  keyring.filter (fun attrs => attrs.lookup "field" = some "uid")

/-- The accounts in the keyring. -/
def accounts (keyring : List Attributes) : KeyMap String Bool :=
  currentAccounts (passwordSearch keyring)

/-- The keyring, the daemon, the change signals that are sent and not delivered, the changes made
so far, and the announcements that are sent and not delivered. -/
structure World where
  keyring : List Attributes
  daemon : Daemon
  changeSignals : ℕ
  changes : List (List Attributes × List Attributes)
  notices : List AccountSignal

def World.new (keyring : List Attributes) : World := ⟨keyring, Daemon.new, 0, [], []⟩

/-- The change from one keyring to another that an announcement is about. -/
def announces (change : List Attributes × List Attributes) : AccountSignal → Bool
  | .added u => u ∉ accounts change.1 ∧ u ∈ accounts change.2
  | .removed u => u ∈ accounts change.1 ∧ u ∉ accounts change.2

inductive Act
  | change (keyring : List Attributes)
  | announce (notice : AccountSignal)
  | opened
  | search (i : ℕ)
  | searchFails (i : ℕ)
  | complete (i : ℕ) (ofCurrent ofKnown : RangeOrder String)
  | gotBus
  | deliverChange
  | deliverNotice (k : ℕ)

/-- The callback an announcement calls. -/
def noticeInput : AccountSignal → Input
  | .added u => .dbusAdded u
  | .removed u => .dbusRemoved u

section Steps

variable (G : VolumeCalls)

def World.step (w : World) : Act → World
  | .change keyring => { w with
      keyring := keyring
      changeSignals := if w.daemon.phase.armed then w.changeSignals + 1 else w.changeSignals
      changes := w.changes ++ [(w.keyring, keyring)] }
  | .announce notice =>
    if w.daemon.phase = .watching ∧ w.changes.any (fun change => announces change notice) then
      { w with notices := w.notices ++ [notice] }
    else w
  | .opened => { w with daemon := w.daemon.step G (.opened true) }
  | .search i =>
    { w with daemon := w.daemon.step G (.answered i (.found (passwordSearch w.keyring))) }
  | .searchFails i => { w with daemon := w.daemon.step G (.answered i .failed) }
  | .complete i ofCurrent ofKnown =>
    { w with daemon := w.daemon.step G (.completed i ofCurrent ofKnown) }
  | .gotBus => { w with daemon := w.daemon.step G (.gotBus true) }
  | .deliverChange =>
    if 0 < w.changeSignals then { w with
      changeSignals := w.changeSignals - 1
      daemon := w.daemon.step G (.serviceSignal "CollectionChanged") }
    else w
  | .deliverNotice k =>
    match w.notices[k]? with
    | none => w
    | some notice => { w with
        notices := w.notices.eraseIdx k
        daemon := w.daemon.step G (noticeInput notice) }

def World.run (w : World) (acts : List Act) : World := acts.foldl (World.step G) w

end Steps

/-- `start` has finished, every change signal has been delivered, and no reload is pending. -/
def Quiescent (w : World) : Prop :=
  w.daemon.phase = .watching ∧ w.changeSignals = 0 ∧ w.daemon.reloads = []

instance (w : World) : Decidable (Quiescent w) := inferInstanceAs (Decidable (_ ∧ _ ∧ _))

/-- The known accounts are those in the keyring. -/
def Agrees (w : World) : Prop := ∀ u, u ∈ w.daemon.known ↔ u ∈ accounts w.keyring

/-- A search that is still running, or has found the accounts this keyring holds. -/
def Fresh (keyring : List Attributes) : Search → Prop
  | .running => True
  | .found items => ∀ u, u ∈ currentAccounts items ↔ u ∈ accounts keyring
  | .failed => False

/-- The keyring is still going to be read as it is now. -/
def Awaited (keyring : List Attributes) (changeSignals : ℕ) (reloads : List Reload) : Prop :=
  0 < changeSignals ∨ ∃ r ∈ reloads, Fresh keyring r.search

/-- An announcement that says what the keyring says. -/
def Announced (keyring : List Attributes) : AccountSignal → Prop
  | .added u => u ∈ accounts keyring
  | .removed u => u ∉ accounts keyring

/-- The initial search has failed, so that `start` does. -/
def Doomed (d : Daemon) : Prop := d.phase = .quit ∨ ⟨true, .failed⟩ ∈ d.reloads

/-- The steps that cannot lead the watcher astray. The keyring changes its accounts between the
initial search and the connection of the listener only when another search will see it; a later
search fails only when the known accounts are right or a later reading is awaited; the result of a
search and an announcement are out of date on delivery only when a later reading is awaited. -/
def Sound (w : World) : Act → Prop
  | .change keyring => w.daemon.phase = .opening ∨ w.daemon.phase.armed ∨
      (∀ u, u ∈ accounts keyring ↔ u ∈ accounts w.keyring) ∨
      Awaited keyring w.changeSignals w.daemon.reloads ∨ Doomed w.daemon
  | .searchFails i => w.daemon.reloads[i]? = some ⟨false, .running⟩ → Agrees w ∨
      Awaited w.keyring w.changeSignals (w.daemon.reloads.eraseIdx i)
  | .complete i _ _ => ∀ r, w.daemon.reloads[i]? = some r → r.search = .failed ∨
      Fresh w.keyring r.search ∨
      Awaited w.keyring w.changeSignals (w.daemon.reloads.eraseIdx i)
  | .deliverNotice k => ∀ notice, w.notices[k]? = some notice → Announced w.keyring notice ∨
      Awaited w.keyring w.changeSignals w.daemon.reloads
  | .announce _ | .opened | .search _ | .gotBus | .deliverChange => True

/-- Every step of the run is sound in the state it is taken in. -/
def SoundRun (G : VolumeCalls) (w : World) : List Act → Prop
  | [] => True
  | act :: acts => Sound w act ∧ SoundRun G (w.step G act) acts

/-- The reloads there can be in each phase. -/
inductive Shape : Phase → List Reload → Prop
  | opening : Shape .opening []
  | loading (search : Search) : Shape .loading [⟨true, search⟩]
  | armed {phase : Phase} {reloads : List Reload} : phase.armed →
      (∀ r ∈ reloads, r.initial = false) → Shape phase reloads
  | quit : Shape .quit []

structure WellFormed (w : World) : Prop where
  shape : Shape w.daemon.phase w.daemon.reloads
  signals : 0 < w.changeSignals → w.daemon.phase.armed
  notices : w.notices ≠ [] → w.daemon.phase = .watching

/-- Until the first search the watcher knows nothing; from then on it knows what the keyring
holds, or is going to read it, unless that search fails. -/
def Settled (w : World) : Prop :=
  w.daemon.phase = .opening ∨ Doomed w.daemon ∨
    Awaited w.keyring w.changeSignals w.daemon.reloads ∨ Agrees w

variable {G : VolumeCalls} {w : World} {d : Daemon} {i : ℕ} {ofCurrent ofKnown : RangeOrder String}

section Daemon

theorem foldl_frame {β : Type} {f : Daemon → String → Daemon} {g : Daemon → β}
    (h : ∀ d u, g (f d u) = g d) (us : List String) (d : Daemon) : g (us.foldl f d) = g d := by
  induction us generalizing d with
  | nil => rfl
  | cons u us ih => rw [List.foldl_cons, ih, h]

@[simp] theorem learn_phase (d : Daemon) (u : String) : (learn G u d).phase = d.phase := by
  rw [learn]
  split_ifs <;> rfl

@[simp] theorem learn_reloads (d : Daemon) (u : String) : (learn G u d).reloads = d.reloads := by
  rw [learn]
  split_ifs <;> rfl

@[simp] theorem forget_phase (d : Daemon) (u : String) : (forget G u d).phase = d.phase := by
  rw [forget, accountRemoved, onAccountRemoved]
  split <;> rfl

@[simp] theorem forget_reloads (d : Daemon) (u : String) : (forget G u d).reloads = d.reloads := by
  rw [forget, accountRemoved, onAccountRemoved]
  split <;> rfl

@[simp] theorem reload_phase (items : List Attributes) :
    (reload G items ofCurrent ofKnown d).phase = d.phase := by
  rw [reload, foldl_frame (g := Daemon.phase) forget_phase,
    foldl_frame (g := Daemon.phase) learn_phase]

@[simp] theorem reload_reloads (items : List Attributes) :
    (reload G items ofCurrent ofKnown d).reloads = d.reloads := by
  rw [reload, foldl_frame (g := Daemon.reloads) forget_reloads,
    foldl_frame (g := Daemon.reloads) learn_reloads]

/-- What the callback of a search that found `items` leaves behind. -/
theorem step_completed (ofCurrent ofKnown : RangeOrder String) {initial : Bool}
    {items : List Attributes} (hr : d.reloads[i]? = some ⟨initial, .found items⟩)
    (hq : d.phase ≠ .quit) :
    let d' := d.step G (.completed i ofCurrent ofKnown)
    d'.phase = (if initial then .gettingBus else d.phase) ∧
      d'.reloads = d.reloads.eraseIdx i ∧ ∀ u, u ∈ d'.known ↔ u ∈ currentAccounts items := by
  simp only [Daemon.step, hr, if_neg hq, complete]
  cases initial with
  | true => exact ⟨rfl, by simp, fun u => mem_known_reload items ofCurrent ofKnown _⟩
  | false => exact ⟨by simp, by simp, fun u => mem_known_reload items ofCurrent ofKnown _⟩

/-- A failed search ends `start`, or is only logged. -/
theorem step_completed_failed (ofCurrent ofKnown : RangeOrder String) {initial : Bool}
    (hr : d.reloads[i]? = some ⟨initial, .failed⟩) (hq : d.phase ≠ .quit) :
    d.step G (.completed i ofCurrent ofKnown) = { d with
      phase := if initial then .quit else d.phase
      reloads := d.reloads.eraseIdx i } := by
  simp only [Daemon.step, hr, if_neg hq, complete]
  cases initial <;> rfl

theorem step_completed_running {initial : Bool}
    (hr : d.reloads[i]? = some ⟨initial, .running⟩) :
    d.step G (.completed i ofCurrent ofKnown) = d := by
  simp only [Daemon.step, hr]

theorem step_completed_none (hr : d.reloads[i]? = none) :
    d.step G (.completed i ofCurrent ofKnown) = d := by
  simp only [Daemon.step, hr]

theorem step_serviceSignal (ha : d.phase.armed) : d.step G (.serviceSignal "CollectionChanged") =
    { d with reloads := d.reloads ++ [⟨false, .running⟩] } := by
  rw [Daemon.step, if_pos ha, onServiceDbusSignal, if_pos (.inr (.inr rfl))]

theorem notice_frame (d : Daemon) (notice : AccountSignal) :
    (d.step G (noticeInput notice)).phase = d.phase ∧
      (d.step G (noticeInput notice)).reloads = d.reloads := by
  cases notice with
  | added v =>
    simp only [noticeInput, Daemon.step, onDbusAccountAdded]
    split_ifs
    · exact ⟨learn_phase d v, learn_reloads d v⟩
    · exact ⟨rfl, rfl⟩
  | removed v =>
    simp only [noticeInput, Daemon.step, onDbusAccountRemoved]
    split_ifs
    · exact ⟨forget_phase d v, forget_reloads d v⟩
    · exact ⟨rfl, rfl⟩
    · exact ⟨rfl, rfl⟩

/-- An announcement changes what is known about its own account only. -/
theorem mem_known_notice (hw : d.phase = .watching) (notice : AccountSignal) (u : String) :
    u ∈ (d.step G (noticeInput notice)).known ↔
      if u = notice.username then notice.isAdded = true else u ∈ d.known := by
  cases notice with
  | added v =>
    simp only [noticeInput, Daemon.step, onDbusAccountAdded, if_pos hw, mem_known_learn]
    by_cases hu : u = v <;> simp [AccountSignal.username, AccountSignal.isAdded, hu]
  | removed v =>
    simp only [noticeInput, Daemon.step, onDbusAccountRemoved, if_pos hw]
    by_cases hv : v ∈ d.known
    · rw [if_pos hv, mem_known_forget]
      by_cases hu : u = v <;> simp [AccountSignal.username, AccountSignal.isAdded, hu]
    · rw [if_neg hv]
      by_cases hu : u = v <;> simp [AccountSignal.username, AccountSignal.isAdded, hu, hv]

theorem announced_iff {keyring : List Attributes} {notice : AccountSignal} :
    Announced keyring notice ↔ (notice.isAdded = true ↔ notice.username ∈ accounts keyring) := by
  cases notice <;> simp [Announced, AccountSignal.isAdded, AccountSignal.username]

end Daemon

theorem Shape.not_quit {phase : Phase} {reloads : List Reload} {r : Reload}
    (h : Shape phase reloads) (hr : r ∈ reloads) : phase ≠ .quit := by
  rintro rfl
  cases h with
  | armed ha => exact absurd ha (by simp [Phase.armed])
  | quit => cases hr

theorem Shape.set {phase : Phase} {reloads : List Reload} {initial : Bool} {old : Search}
    (h : Shape phase reloads) (hr : reloads[i]? = some ⟨initial, old⟩) (new : Search) :
    Shape phase (reloads.set i ⟨initial, new⟩) := by
  cases h with
  | opening => simp at hr
  | quit => simp at hr
  | loading search =>
    obtain ⟨hi, rfl, -⟩ := by simpa [List.getElem?_singleton] using hr
    subst hi
    exact .loading new
  | armed ha hs =>
    refine .armed ha fun r hm => ?_
    rcases List.mem_or_eq_of_mem_set hm with hm | rfl
    · exact hs r hm
    · have hold := hs _ (List.mem_of_getElem? hr)
      exact hold

theorem Shape.erase {phase : Phase} {reloads : List Reload} {r : Reload} (h : Shape phase reloads)
    (hr : reloads[i]? = some r) :
    Shape (if r.initial then .gettingBus else phase) (reloads.eraseIdx i) := by
  cases h with
  | opening => simp at hr
  | quit => simp at hr
  | loading search =>
    obtain ⟨hi, rfl⟩ := by simpa [List.getElem?_singleton] using hr
    subst hi
    exact .armed rfl (by simp)
  | armed ha hs =>
    rw [hs r (List.mem_of_getElem? hr)]
    exact .armed ha fun r' hm => hs r' (List.mem_of_mem_eraseIdx hm)

theorem Shape.erase_failed {phase : Phase} {reloads : List Reload} {r : Reload}
    (h : Shape phase reloads) (hr : reloads[i]? = some r) :
    Shape (if r.initial then .quit else phase) (reloads.eraseIdx i) := by
  cases h with
  | opening => simp at hr
  | quit => simp at hr
  | loading search =>
    obtain ⟨hi, rfl⟩ := by simpa [List.getElem?_singleton] using hr
    subst hi
    exact .quit
  | armed ha hs =>
    rw [hs r (List.mem_of_getElem? hr)]
    exact .armed ha fun r' hm => hs r' (List.mem_of_mem_eraseIdx hm)

/-- A completion finds nothing to deliver, or delivers what a search has found, or its failure. -/
theorem completed_cases (d : Daemon) (i : ℕ) (ofCurrent ofKnown : RangeOrder String) :
    d.step G (.completed i ofCurrent ofKnown) = d ∨
      (∃ initial, d.reloads[i]? = some ⟨initial, .failed⟩) ∨
      ∃ initial items, d.reloads[i]? = some ⟨initial, .found items⟩ := by
  cases hr : d.reloads[i]? with
  | none => exact .inl (step_completed_none hr)
  | some r =>
    obtain ⟨initial, search⟩ := r
    cases search with
    | running => exact .inl (step_completed_running hr)
    | failed => exact .inr (.inl ⟨initial, rfl⟩)
    | found items => exact .inr (.inr ⟨initial, items, rfl⟩)

theorem Shape.armed_of_watching {phase : Phase} {reloads : List Reload} (h : Shape phase reloads)
    (hw : phase.armed) : ∀ r ∈ reloads, r.initial = false := by
  cases h with
  | armed _ hs => exact hs
  | opening | loading | quit => simp [Phase.armed] at hw

theorem WellFormed.opened (h : WellFormed w) : WellFormed (w.step G .opened) := by
  simp only [World.step, Daemon.step]
  split_ifs with ho
  · have hs := h.shape
    have hsig := h.signals
    have hnot := h.notices
    rw [ho] at hs hsig hnot
    generalize hrs : w.daemon.reloads = reloads at hs
    cases hs with
    | opening =>
      refine ⟨?_, fun hpos => absurd (hsig hpos) (by simp [Phase.armed]),
        fun hne => absurd (hnot hne) (by simp)⟩
      simpa [hrs] using Shape.loading .running
    | armed ha => simp [Phase.armed] at ha
  · exact h

/-- While changes are announced, no search is the initial one. -/
theorem WellFormed.initial (h : WellFormed w) {r : Reload} (hr : r ∈ w.daemon.reloads)
    (hb : 0 < w.changeSignals ∨ w.notices ≠ []) : r.initial = false := by
  have ha : w.daemon.phase.armed := hb.elim h.signals fun hne => by rw [h.notices hne]; rfl
  exact h.shape.armed_of_watching ha r hr

theorem WellFormed.complete (h : WellFormed w) (i : ℕ) (ofCurrent ofKnown : RangeOrder String) :
    WellFormed (w.step G (.complete i ofCurrent ofKnown)) := by
  rw [World.step]
  rcases completed_cases (G := G) w.daemon i ofCurrent ofKnown with
    he | ⟨initial, hr⟩ | ⟨initial, items, hr⟩
  · rw [he]
    exact h
  · have hm := List.mem_of_getElem? hr
    rw [step_completed_failed ofCurrent ofKnown hr (h.shape.not_quit hm)]
    refine ⟨h.shape.erase_failed hr, fun hpos => ?_, fun hne => ?_⟩
    · obtain rfl : initial = false := h.initial hm (.inl hpos)
      exact h.signals hpos
    · obtain rfl : initial = false := h.initial hm (.inr hne)
      exact h.notices hne
  · have hm := List.mem_of_getElem? hr
    obtain ⟨hp, hl, -⟩ := step_completed (G := G) ofCurrent ofKnown hr (h.shape.not_quit hm)
    refine ⟨?_, fun hpos => ?_, fun hne => ?_⟩
    · rw [hp, hl]
      exact h.shape.erase hr
    · obtain rfl : initial = false := h.initial hm (.inl hpos)
      rw [hp]
      exact h.signals hpos
    · obtain rfl : initial = false := h.initial hm (.inr hne)
      rw [hp]
      exact h.notices hne

theorem WellFormed.deliverChange (h : WellFormed w) : WellFormed (w.step G .deliverChange) := by
  rw [World.step]
  split_ifs with hpos
  · have ha := h.signals hpos
    rw [step_serviceSignal ha]
    refine ⟨.armed ha fun r hm => ?_, fun _ => ha, h.notices⟩
    rcases List.mem_append.mp hm with hm | hm
    · exact h.shape.armed_of_watching ha r hm
    · obtain rfl := List.mem_singleton.mp hm
      rfl
  · exact h

theorem WellFormed.deliverNotice (h : WellFormed w) (k : ℕ) :
    WellFormed (w.step G (.deliverNotice k)) := by
  rw [World.step]
  split
  · exact h
  · next notice hk =>
    obtain ⟨hp, hr⟩ := notice_frame (G := G) w.daemon notice
    refine ⟨by rw [hp, hr]; exact h.shape, by rw [hp]; exact h.signals, fun _ => ?_⟩
    rw [hp]
    exact h.notices (List.ne_nil_of_mem (List.mem_of_getElem? hk))

theorem WellFormed.step (h : WellFormed w) (act : Act) : WellFormed (w.step G act) := by
  cases act with
  | change keyring =>
    refine ⟨h.shape, fun hs => ?_, h.notices⟩
    by_cases ha : w.daemon.phase.armed
    · exact ha
    · simp only [World.step, if_neg ha] at hs
      exact h.signals hs
  | announce notice =>
    rw [World.step]
    split_ifs with hn
    · exact ⟨h.shape, h.signals, fun _ => hn.1⟩
    · exact h
  | opened => exact h.opened
  | search i =>
    simp only [World.step, Daemon.step]
    split
    · next initial hr => exact ⟨h.shape.set hr _, h.signals, h.notices⟩
    · exact h
  | searchFails i =>
    simp only [World.step, Daemon.step]
    split
    · next initial hr => exact ⟨h.shape.set hr _, h.signals, h.notices⟩
    · exact h
  | complete i ofCurrent ofKnown => exact h.complete i ofCurrent ofKnown
  | gotBus =>
    simp only [World.step, Daemon.step]
    split_ifs with hg
    · have hs := h.shape
      rw [hg] at hs
      exact ⟨.armed rfl (hs.armed_of_watching rfl), fun _ => rfl, fun _ => rfl⟩
    · exact h
  | deliverChange => exact h.deliverChange
  | deliverNotice k => exact h.deliverNotice k

theorem Fresh.congr {keyring keyring' : List Attributes} {search : Search}
    (h : Fresh keyring search) (hk : ∀ u, u ∈ accounts keyring' ↔ u ∈ accounts keyring) :
    Fresh keyring' search := by
  cases search with
  | running => trivial
  | failed => exact h
  | found items => exact fun u => (h u).trans (hk u).symm

theorem Awaited.congr {keyring keyring' : List Attributes} {changeSignals : ℕ}
    {reloads : List Reload} (h : Awaited keyring changeSignals reloads)
    (hk : ∀ u, u ∈ accounts keyring' ↔ u ∈ accounts keyring) :
    Awaited keyring' changeSignals reloads := by
  rcases h with hpos | ⟨r, hr, hf⟩
  · exact .inl hpos
  · exact .inr ⟨r, hr, hf.congr hk⟩

theorem Awaited.erase {keyring : List Attributes} {changeSignals : ℕ} {reloads : List Reload}
    {initial : Bool} (h : Awaited keyring changeSignals reloads)
    (hr : reloads[i]? = some ⟨initial, .failed⟩) :
    Awaited keyring changeSignals (reloads.eraseIdx i) := by
  refine h.imp_right ?_
  rintro ⟨r, hm, hf⟩
  refine ⟨r, List.mem_eraseIdx_iff_getElem?.mpr ?_, hf⟩
  obtain ⟨j, hj⟩ := List.mem_iff_getElem?.mp hm
  refine ⟨j, ?_, hj⟩
  rintro rfl
  cases hr.symm.trans hj
  exact hf

/-- What is awaited without this search is awaited whatever comes of it. -/
theorem Awaited.set {keyring : List Attributes} {changeSignals : ℕ} {reloads : List Reload}
    (r : Reload) (h : Awaited keyring changeSignals (reloads.eraseIdx i)) :
    Awaited keyring changeSignals (reloads.set i r) := by
  refine h.imp_right ?_
  rintro ⟨r', hm, hf⟩
  obtain ⟨j, hj, hr'⟩ := List.mem_eraseIdx_iff_getElem?.mp hm
  refine ⟨r', List.mem_iff_getElem?.mpr ⟨j, ?_⟩, hf⟩
  rw [List.getElem?_set_ne (Ne.symm hj), hr']

/-- A change of the keyring takes no change signal away. -/
theorem Awaited.change {keyring : List Attributes}
    (h : Awaited keyring w.changeSignals w.daemon.reloads) :
    Settled (w.step G (.change keyring)) := by
  refine .inr (.inr (.inl ?_))
  rcases h with hpos | hr
  · refine .inl ?_
    simp only [World.step]
    split_ifs <;> omega
  · exact .inr hr

theorem Settled.change {keyring : List Attributes} (h : Settled w)
    (hs : Sound w (.change keyring)) : Settled (w.step G (.change keyring)) := by
  rcases hs with ho | ha | hk | ha | hd
  · exact .inl ho
  · refine .inr (.inr (.inl (.inl ?_)))
    simp [World.step, ha]
  · rcases h with ho | hd | ha | hg
    · exact .inl ho
    · exact .inr (.inl hd)
    · exact (ha.congr hk).change
    · exact .inr (.inr (.inr fun u => (hg u).trans (hk u).symm))
  · exact ha.change
  · exact .inr (.inl hd)

/-- A search that fails leaves the known accounts right, or a later reading awaited. -/
theorem Settled.searchFails (h : Settled w) (hs : Sound w (.searchFails i)) :
    Settled (w.step G (.searchFails i)) := by
  simp only [World.step, Daemon.step]
  split
  · next initial hr =>
    cases initial with
    | true =>
      refine .inr (.inl (.inr ?_))
      exact List.mem_set (List.getElem?_eq_some_iff.mp hr).1 _
    | false =>
      rcases hs hr with hg | ha
      · exact .inr (.inr (.inr hg))
      · exact .inr (.inr (.inl (ha.set _)))
  · exact h

/-- A delivered search that was out of date leaves a later reading awaited. -/
theorem Settled.complete (h : Settled w) (hw : WellFormed w)
    (hs : Sound w (.complete i ofCurrent ofKnown)) :
    Settled (w.step G (.complete i ofCurrent ofKnown)) := by
  rw [World.step]
  rcases completed_cases (G := G) w.daemon i ofCurrent ofKnown with
    he | ⟨initial, hr⟩ | ⟨initial, items, hr⟩
  · rw [he]
    exact h
  · have hm := List.mem_of_getElem? hr
    have hq := hw.shape.not_quit hm
    rw [step_completed_failed ofCurrent ofKnown hr hq]
    cases initial with
    | true => exact .inr (.inl (.inl rfl))
    | false =>
      rcases h with ho | (hd | hd) | ha | hg
      · exact .inl ho
      · exact absurd hd hq
      · refine .inr (.inl (.inr (List.mem_eraseIdx_iff_getElem?.mpr ?_)))
        obtain ⟨j, hj⟩ := List.mem_iff_getElem?.mp hd
        refine ⟨j, ?_, hj⟩
        rintro rfl
        cases hr.symm.trans hj
      · exact .inr (.inr (.inl (ha.erase hr)))
      · exact .inr (.inr (.inr hg))
  · have hm := List.mem_of_getElem? hr
    obtain ⟨-, hl, hk⟩ := step_completed (G := G) ofCurrent ofKnown hr (hw.shape.not_quit hm)
    rcases hs _ hr with hf | hf | ha
    · cases hf
    · exact .inr (.inr (.inr fun u => (hk u).trans (hf u)))
    · refine .inr (.inr (.inl ?_))
      rw [hl]
      exact ha

theorem Settled.deliverNotice {k : ℕ} (h : Settled w) (hw : WellFormed w)
    (hs : Sound w (.deliverNotice k)) : Settled (w.step G (.deliverNotice k)) := by
  rw [World.step]
  split
  · exact h
  · next notice hk =>
    obtain ⟨hp, hr⟩ := notice_frame (G := G) w.daemon notice
    have hwatching := hw.notices (List.ne_nil_of_mem (List.mem_of_getElem? hk))
    rcases h with ho | hd | ha | hg
    · exact .inl (hp.trans ho)
    · refine .inr (.inl ?_)
      rw [Doomed, hp, hr]
      exact hd
    · refine .inr (.inr (.inl ?_))
      rw [hr]
      exact ha
    · rcases hs _ hk with hn | ha
      · refine .inr (.inr (.inr fun u => ?_))
        rw [mem_known_notice hwatching]
        split_ifs with hu
        · rw [hu]
          exact announced_iff.mp hn
        · exact hg u
      · refine .inr (.inr (.inl ?_))
        rw [hr]
        exact ha

/-- A sound step leaves the watcher settled. -/
theorem Settled.step (h : Settled w) (hw : WellFormed w) {act : Act} (hs : Sound w act) :
    Settled (w.step G act) := by
  cases act with
  | change keyring => exact h.change hs
  | announce notice =>
    rw [World.step]
    split_ifs <;> exact h
  | opened =>
    simp only [World.step, Daemon.step]
    split_ifs with ho
    · exact .inr (.inr (.inl (.inr ⟨⟨true, .running⟩, by simp, trivial⟩)))
    · exact h
  | search i =>
    simp only [World.step, Daemon.step]
    split
    · next initial hr =>
      refine .inr (.inr (.inl (.inr ⟨⟨initial, .found (passwordSearch w.keyring)⟩, ?_, ?_⟩)))
      · have hi := (List.getElem?_eq_some_iff.mp hr).1
        exact List.mem_set hi _
      · exact fun u => Iff.rfl
    · exact h
  | searchFails i => exact h.searchFails hs
  | complete i ofCurrent ofKnown => exact h.complete hw hs
  | gotBus =>
    simp only [World.step, Daemon.step]
    split_ifs with hg
    · refine h.imp (fun ho => by simp [hg] at ho) (Or.imp_left fun hd => .inr ?_)
      exact hd.resolve_left (by simp [hg])
    · exact h
  | deliverChange =>
    rw [World.step]
    split_ifs with hpos
    · rw [step_serviceSignal (hw.signals hpos)]
      exact .inr (.inr (.inl (.inr ⟨⟨false, .running⟩, by simp, trivial⟩)))
    · exact h
  | deliverNotice k => exact h.deliverNotice hw hs

theorem wellFormed_new (keyring : List Attributes) : WellFormed (World.new keyring) :=
  ⟨.opening, by simp [World.new], by simp [World.new]⟩

theorem SoundRun.settled {acts : List Act} (hs : SoundRun G w acts) (hw : WellFormed w)
    (h : Settled w) : WellFormed (w.run G acts) ∧ Settled (w.run G acts) := by
  induction acts generalizing w with
  | nil => exact ⟨hw, h⟩
  | cons act acts ih => exact ih hs.2 (hw.step act) (h.step hw hs.1)

theorem Settled.agrees (h : Settled w) (hq : Quiescent w) : Agrees w := by
  obtain ⟨hp, hs, hr⟩ := hq
  rcases h with ho | hd | ha | hg
  · simp [ho] at hp
  · simp [Doomed, hp, hr] at hd
  · simp [Awaited, hs, hr] at ha
  · exact hg

/-- A callback of the main loop that finishes what has been begun. -/
def Act.Settling : Act → Prop
  | .complete _ _ _ | .gotBus => True
  | _ => False

/-- The watcher can come to rest with the wrong accounts. -/
def Astray (G : VolumeCalls) (w : World) : Prop :=
  ∃ acts : List Act, (∀ act ∈ acts, act.Settling) ∧ Quiescent (w.run G acts) ∧
    ¬ Agrees (w.run G acts)

theorem Astray.of_step (act : Act) (hs : act.Settling) (h : Astray G (w.step G act)) :
    Astray G w := by
  obtain ⟨acts, hacts, hq, hg⟩ := h
  exact ⟨act :: acts, List.forall_mem_cons.mpr ⟨hs, hacts⟩, hq, hg⟩

theorem Shape.armed_of_mem {phase : Phase} {reloads : List Reload} (h : Shape phase reloads)
    {r : Reload} (hr : r ∈ reloads) (hi : r.initial = false) : phase.armed := by
  cases h with
  | opening => simp at hr
  | quit => simp at hr
  | loading =>
    obtain rfl := List.mem_singleton.mp hr
    cases hi
  | armed ha => exact ha

/-- Delivering a search result that is out of date leaves the wrong accounts known. -/
theorem completed_wrong (hw : WellFormed w) (ofCurrent ofKnown : RangeOrder String) {r : Reload}
    (hr : w.daemon.reloads[i]? = some r) (hfound : r.search ≠ .failed)
    (hf : ¬ Fresh w.keyring r.search) :
    let w' := w.step G (.complete i ofCurrent ofKnown)
    w'.daemon.phase.armed ∧ w'.daemon.reloads = w.daemon.reloads.eraseIdx i ∧ ¬ Agrees w' := by
  have hm := List.mem_of_getElem? hr
  obtain ⟨initial, search⟩ := r
  cases search with
  | running => exact absurd trivial hf
  | failed => exact absurd rfl hfound
  | found items =>
    obtain ⟨hp, hl, hk⟩ := step_completed (G := G) ofCurrent ofKnown hr (hw.shape.not_quit hm)
    refine ⟨?_, hl, fun hg => hf fun u => (hk u).symm.trans (hg u)⟩
    simp only [World.step, hp]
    cases initial with
    | true => rfl
    | false => exact hw.shape.armed_of_mem hm rfl

/-- When the listener is armed and no reading of the keyring as it is now is awaited, what is
begun ends with the wrong accounts, unless the known ones are right and all searches have failed. -/
theorem astray_of_armed (hw : WellFormed w) (ha : w.daemon.phase.armed)
    (hn : ¬ Awaited w.keyring w.changeSignals w.daemon.reloads)
    (hg : (∀ r ∈ w.daemon.reloads, r.search = .failed) → ¬ Agrees w) : Astray G w := by
  have hsig : w.changeSignals = 0 := by
    by_contra hne
    exact hn (.inl (Nat.pos_of_ne_zero hne))
  generalize hr : w.daemon.reloads = reloads
  induction reloads generalizing w with
  | nil =>
    have hwrong := hg (by simp [hr])
    cases hp : w.daemon.phase with
    | opening => simp [hp, Phase.armed] at ha
    | loading => simp [hp, Phase.armed] at ha
    | quit => simp [hp, Phase.armed] at ha
    | watching => exact ⟨[], by simp, ⟨hp, hsig, hr⟩, hwrong⟩
    | gettingBus =>
      refine ⟨[.gotBus], by simp [Act.Settling], ?_, ?_⟩
      · simp [World.run, World.step, Daemon.step, hp, Quiescent, hsig, hr]
      · simpa [World.run, World.step, Daemon.step, hp, Agrees] using hwrong
  | cons r rest ih =>
    have hf : ∀ r' ∈ w.daemon.reloads, ¬ Fresh w.keyring r'.search :=
      fun r' hm hfresh => hn (.inr ⟨r', hm, hfresh⟩)
    have hhead : w.daemon.reloads[0]? = some r := by simp [hr]
    have hrest : ∀ {w' : World}, w'.keyring = w.keyring → w'.changeSignals = w.changeSignals →
        w'.daemon.reloads = rest → ¬ Awaited w'.keyring w'.changeSignals w'.daemon.reloads := by
      rintro w' hk hc hl (hpos | ⟨r', hm, hfresh⟩)
      · exact absurd hpos (by simp [hc, hsig])
      · rw [hl] at hm
        exact hf r' (by simp [hr, hm]) (hk ▸ hfresh)
    refine .of_step (.complete 0 default default) trivial ?_
    by_cases hfailed : r.search = .failed
    · have hinitial : r.initial = false := hw.shape.armed_of_watching ha r (by simp [hr])
      obtain rfl : r = ⟨false, .failed⟩ := by
        rw [← hinitial, ← hfailed]
      have hq := hw.shape.not_quit (List.mem_of_getElem? hhead)
      have hstep : w.step G (.complete 0 default default) = { w with
          daemon := { w.daemon with reloads := rest } } := by
        rw [World.step, step_completed_failed _ _ hhead hq, hr, List.eraseIdx_cons_zero]
        rfl
      have hw' := hw.step (G := G) (.complete 0 default default)
      rw [hstep] at hw' ⊢
      refine ih hw' ha (hrest rfl rfl rfl) (fun hall => hg fun r' hm => ?_) hsig rfl
      rw [hr] at hm
      rcases List.mem_cons.mp hm with rfl | hm
      · rfl
      · exact hall r' hm
    · obtain ⟨ha', hr', hg'⟩ := completed_wrong (G := G) (i := 0) hw default default hhead hfailed
        (hf r (by simp [hr]))
      rw [hr, List.eraseIdx_cons_zero] at hr'
      exact ih (hw.step _) ha' (hrest rfl rfl hr') (fun _ => hg') hsig hr'

/-- After a step that is not sound, the watcher can come to rest with the wrong accounts. -/
theorem astray_of_not_sound (hw : WellFormed w) {act : Act} (hs : ¬ Sound w act) :
    Astray G (w.step G act) := by
  cases act with
  | change keyring =>
    simp only [Sound, not_or] at hs
    obtain ⟨ho, ha, -, hn, hd⟩ := hs
    have hshape := hw.shape
    have hw' : WellFormed (w.step G (.change keyring)) := hw.step _
    generalize hp : w.daemon.phase = phase at hshape ho ha
    generalize hr : w.daemon.reloads = reloads at hshape
    cases hshape with
    | opening => exact absurd rfl ho
    | armed harmed => exact absurd harmed ha
    | quit => exact absurd (.inl hp) hd
    | loading search =>
      have hfound : search ≠ .failed := by
        rintro rfl
        exact hd (.inr (by simp [hr]))
      have hf : ¬ Fresh keyring search :=
        fun hfresh => hn (.inr ⟨⟨true, search⟩, by simp [hr], hfresh⟩)
      obtain ⟨ha', hr', hg'⟩ := completed_wrong (G := G) (i := 0) hw' default
        default (r := ⟨true, search⟩) (by simp [World.step, hr]) hfound hf
      refine .of_step (.complete 0 default default) trivial
        (astray_of_armed (hw'.step _) ha' ?_ (fun _ => hg'))
      rintro (hpos | ⟨r', hm, -⟩)
      · refine hn (.inl ?_)
        simpa [World.step, hp, Phase.armed] using hpos
      · rw [hr'] at hm
        simp [World.step, hr] at hm
  | searchFails i =>
    simp only [Sound, Classical.not_imp, not_or] at hs
    obtain ⟨hr, hg, hn⟩ := hs
    have hstep : w.step G (.searchFails i) = { w with daemon := { w.daemon with
        reloads := w.daemon.reloads.set i ⟨false, .failed⟩ } } := by
      simp only [World.step, Daemon.step, hr]
    have ha := hw.shape.armed_of_mem (List.mem_of_getElem? hr) rfl
    have hw' := hw.step (G := G) (.searchFails i)
    rw [hstep] at hw' ⊢
    refine astray_of_armed hw' ha (fun hawaited => hn (hawaited.imp_right ?_)) fun _ => hg
    rintro ⟨r, hm, hf⟩
    obtain ⟨j, hj⟩ := List.mem_iff_getElem?.mp hm
    refine ⟨r, List.mem_eraseIdx_iff_getElem?.mpr ⟨j, ?_, ?_⟩, hf⟩
    · rintro rfl
      rw [List.getElem?_set_self (List.getElem?_eq_some_iff.mp hr).1] at hj
      cases hj
      exact hf
    · by_cases hij : i = j
      · subst hij
        rw [List.getElem?_set_self (List.getElem?_eq_some_iff.mp hr).1] at hj
        cases hj
        exact absurd hf id
      · rwa [List.getElem?_set_ne hij] at hj
  | complete i ofCurrent ofKnown =>
    simp only [Sound, not_forall, not_or] at hs
    obtain ⟨r, hr, hfound, hf, hn⟩ := hs
    obtain ⟨ha', hr', hg'⟩ := completed_wrong (G := G) hw ofCurrent ofKnown hr hfound hf
    refine astray_of_armed (hw.step _) ha' ?_ (fun _ => hg')
    rw [hr']
    exact hn
  | deliverNotice k =>
    simp only [Sound, not_forall, not_or] at hs
    obtain ⟨notice, hk, hno, hn⟩ := hs
    have hwatching := hw.notices (List.ne_nil_of_mem (List.mem_of_getElem? hk))
    obtain ⟨hp, hr⟩ := notice_frame (G := G) w.daemon notice
    have hstep : (w.step G (.deliverNotice k)).daemon = w.daemon.step G (noticeInput notice) := by
      simp only [World.step, hk]
    have hkeyring : (w.step G (.deliverNotice k)).keyring = w.keyring := by
      simp only [World.step, hk]
    refine astray_of_armed (hw.step _) ?_ ?_ fun _ hg => hno ?_
    · rw [hstep, hp, hwatching]
      rfl
    · rw [hstep, hr, hkeyring]
      simpa only [World.step, hk] using hn
    · have hu := hg notice.username
      rw [hstep, hkeyring, mem_known_notice hwatching, if_pos rfl] at hu
      exact announced_iff.mpr hu
  | announce notice => exact absurd trivial hs
  | opened => exact absurd trivial hs
  | search i => exact absurd trivial hs
  | gotBus => exact absurd trivial hs
  | deliverChange => exact absurd trivial hs

/-- What the daemon sees of a step is at most one callback. -/
theorem step_daemon (w : World) (act : Act) : (w.step G act).daemon = w.daemon ∨
    ∃ input, (w.step G act).daemon = w.daemon.step G input := by
  cases act with
  | change keyring => exact .inl rfl
  | announce notice =>
    rw [World.step]
    split_ifs <;> exact .inl rfl
  | opened => exact .inr ⟨.opened true, rfl⟩
  | search i => exact .inr ⟨.answered i (.found (passwordSearch w.keyring)), rfl⟩
  | searchFails i => exact .inr ⟨.answered i .failed, rfl⟩
  | complete i ofCurrent ofKnown => exact .inr ⟨.completed i ofCurrent ofKnown, rfl⟩
  | gotBus => exact .inr ⟨.gotBus true, rfl⟩
  | deliverChange =>
    rw [World.step]
    split_ifs
    · exact .inr ⟨.serviceSignal "CollectionChanged", rfl⟩
    · exact .inl rfl
  | deliverNotice k =>
    rw [World.step]
    split
    · exact .inl rfl
    · next notice _ => exact .inr ⟨noticeInput notice, rfl⟩

theorem run_inv (h : AccountWatcher.Inv G w.daemon) (acts : List Act) :
    AccountWatcher.Inv G (w.run G acts).daemon := by
  induction acts generalizing w with
  | nil => exact h
  | cons act acts ih =>
    refine ih ?_
    rcases step_daemon (G := G) w act with hd | ⟨input, hd⟩
    · rw [hd]
      exact h
    · rw [hd]
      exact h.step input

/-- In a run of sound steps the watcher at rest knows the accounts of the keyring, and the volumes
are theirs. After any other step it can come to rest with the wrong accounts. -/
theorem watcher_converges (G : VolumeCalls) (keyring : List Attributes) (acts : List Act)
    (h : SoundRun G (World.new keyring) acts) :
    let w := (World.new keyring).run G acts
    (Quiescent w → ∀ u, (u ∈ w.daemon.known ↔ u ∈ accounts w.keyring) ∧
      (u ∈ w.daemon.volumes ↔ u ∈ accounts w.keyring)) ∧
      ∀ act, ¬ Sound w act → Astray G (w.step G act) := by
  intro w
  obtain ⟨hw, hs⟩ := h.settled (wellFormed_new keyring) (.inl rfl)
  have hi : AccountWatcher.Inv G w.daemon := run_inv (w := World.new keyring) inv_new acts
  refine ⟨fun hq u => ⟨hs.agrees hq u, ?_⟩, fun act hact => astray_of_not_sound hw hact⟩
  exact hi.mem_volumes.trans (hs.agrees hq u)

/-- One account, as the setup wizard stores it. -/
def uidItem (username : String) : Attributes := ofPairs [("username", username), ("field", "uid")]

def plainCalls : VolumeCalls := ⟨id, fun _ => none⟩

/-- An account is removed while the watcher listens. -/
def removal : List Act := [.opened, .search 0, .complete 0 default default, .gotBus, .change [],
  .deliverChange, .search 0, .complete 0 default default]

theorem removal_converges :
    let w := (World.new [uidItem "a"]).run plainCalls removal
    Quiescent w ∧ "a" ∉ w.daemon.known ∧
    ∀ u, (u ∈ w.daemon.known ↔ u ∈ accounts w.keyring) ∧
      (u ∈ w.daemon.volumes ↔ u ∈ accounts w.keyring) := by
  have hsound : SoundRun plainCalls (World.new [uidItem "a"]) removal := by
    refine ⟨trivial, trivial, ?_, trivial, .inr (.inl ?_), trivial, trivial, ?_, trivial⟩
    · intro r hr
      obtain rfl := Option.some.inj hr
      exact .inr (.inl fun u => Iff.rfl)
    · decide +kernel
    · intro r hr
      obtain rfl := Option.some.inj hr
      exact .inr (.inl fun u => Iff.rfl)
  have hq : Quiescent ((World.new [uidItem "a"]).run plainCalls removal) := by decide +kernel
  exact ⟨hq, by decide +kernel, (watcher_converges plainCalls [uidItem "a"] removal hsound).1 hq⟩

/-- The account is stored after the initial search. -/
def missed : List Act := [.opened, .search 0, .change [uidItem "a"], .complete 0 default default,
  .gotBus]

/-- Two reloads overlap, and the earlier search is delivered last. -/
def overtaken : List Act := [.opened, .search 0, .complete 0 default default, .gotBus,
  .change [uidItem "a"], .deliverChange, .search 0, .change [], .deliverChange, .search 1,
  .complete 1 default default, .complete 0 default default]

/-- The setup wizard's announcement arrives after the account has been removed again. -/
def belated : List Act := [.opened, .search 0, .complete 0 default default, .gotBus,
  .change [uidItem "a"], .change [], .announce (.added "a"), .deliverChange, .deliverChange,
  .search 0, .search 1, .complete 0 default default, .complete 0 default default, .deliverNotice 0]

/-- At rest, with the account in the keyring and not known, or the other way round. -/
theorem watcher_diverges :
    let w := (World.new []).run plainCalls missed
    let w₁ := (World.new []).run plainCalls overtaken
    let w₂ := (World.new []).run plainCalls belated
    (Quiescent w ∧ "a" ∉ w.daemon.known ∧ "a" ∈ accounts w.keyring) ∧
      (Quiescent w₁ ∧ "a" ∈ w₁.daemon.known ∧ "a" ∉ accounts w₁.keyring) ∧
      (Quiescent w₂ ∧ "a" ∈ w₂.daemon.known ∧ "a" ∉ accounts w₂.keyring) := by
  decide +kernel

end ProtonDrive.WatcherConvergence
