import ProtonDrive.KeyedMaps
import ProtonDrive.Alternation
import Mathlib.Data.Set.Image

/-!
# The account watcher and the volume table

`ProtonAccountWatcher` keeps the set of known accounts up to date from keyring searches and from
the signals of the setup wizard; `RemoteVolumeMonitor` turns each of its signals into a volume.
The daemon runs on one main loop: an input is one callback of that loop, and a search of the
keyring is answered and delivered by two inputs, so that any number of reloads overlap.
-/

namespace ProtonDrive.AccountWatcher
open KeyedMaps Alternation

inductive Variant
  | string (value : String)
  | boolean (value : Bool)
  deriving DecidableEq, Repr

/-- What `proton-volume.vala` asks of GLib: `Uri.escape_string`, and `ThemedIcon.serialize`, which
may return null. -/
structure VolumeCalls where
  escapeString : String → String
  serialize : String → Option Variant

structure Volume where
  username : String
  id : String
  activationUri : String
  deriving DecidableEq, Repr

/-- The id of the volume of an account. -/
def volumeID (username : String) : String := "proton-" ++ username

def Volume.new (G : VolumeCalls) (username : String) : Volume where
  username := username
  id := volumeID username
  activationUri := "proton://" ++ G.escapeString username ++ "/"

def Volume.displayName (vol : Volume) : String := "Proton Drive (" ++ vol.username ++ ")"

def iconVariant (G : VolumeCalls) : Variant :=
  (G.serialize "proton-drive-symbolic").getD (.string "proton-drive-symbolic")

def Volume.toVariant (G : VolumeCalls) (vol : Volume) : List (String × Variant) :=
  [("type", .string "volume"), ("id", .string vol.id), ("name", .string vol.displayName),
    ("gicon-serialized", iconVariant G), ("uuid", .string vol.id),
    ("activation-uri", .string vol.activationUri), ("can-mount", .boolean true),
    ("can-eject", .boolean false), ("should-automount", .boolean false)]

inductive AccountSignal
  | added (username : String)
  | removed (username : String)
  deriving DecidableEq, Repr

def AccountSignal.username : AccountSignal → String
  | added u | removed u => u

def AccountSignal.isAdded : AccountSignal → Bool
  | added _ => true
  | removed _ => false

inductive VolumeSignal
  | added (dbusID : String) (volume : List (String × Variant))
  | removed (dbusID : String) (volume : List (String × Variant))
  deriving DecidableEq, Repr

def VolumeSignal.dbusID : VolumeSignal → String
  | added id _ | removed id _ => id

def VolumeSignal.isAdded : VolumeSignal → Bool
  | added _ _ => true
  | removed _ _ => false

/-- The attributes of one keyring item. -/
abbrev Attributes := KeyMap String String

/-- How far the keyring search of a reload is. -/
inductive Search
  | running
  | found (items : List Attributes)
  | failed

/-- A reload waiting for its search; `start` itself waits for the initial one. -/
structure Reload where
  initial : Bool
  search : Search

/-- Where `start` is: it opens the keyring service, waits for the initial reload, arms the service
listener and gets the session bus, and then listens on both. When it fails, the daemon quits. -/
inductive Phase
  | opening
  | loading
  | gettingBus
  | watching
  | quit
  deriving DecidableEq, Repr

structure Daemon where
  phase : Phase
  reloads : List Reload
  known : KeyMap String Bool
  volumes : KeyMap String Volume
  accountSignals : List AccountSignal
  volumeSignals : List VolumeSignal

def Daemon.new : Daemon := ⟨.opening, [], ∅, ∅, [], []⟩

section Handlers

variable (G : VolumeCalls)

def onAccountAdded (username : String) (d : Daemon) : Daemon :=
  let vol := Volume.new G username
  { d with
    volumes := d.volumes.insert username vol
    volumeSignals := d.volumeSignals ++ [.added vol.id (vol.toVariant G)] }

def onAccountRemoved (username : String) (d : Daemon) : Daemon :=
  match d.volumes.lookup username with
  | none => d
  | some vol => { d with
      volumes := d.volumes.erase username
      volumeSignals := d.volumeSignals ++ [.removed vol.id (vol.toVariant G)] }

/-- The `account_added` signal, with the handler connected to it. -/
def accountAdded (username : String) (d : Daemon) : Daemon :=
  onAccountAdded G username { d with accountSignals := d.accountSignals ++ [.added username] }

def accountRemoved (username : String) (d : Daemon) : Daemon :=
  onAccountRemoved G username { d with accountSignals := d.accountSignals ++ [.removed username] }

def learn (username : String) (d : Daemon) : Daemon :=
  if username ∈ d.known then d
  else accountAdded G username { d with known := d.known.insert username true }

def forget (username : String) (d : Daemon) : Daemon :=
  accountRemoved G username { d with known := d.known.erase username }

def onDbusAccountAdded (username : String) (d : Daemon) : Daemon := learn G username d

def onDbusAccountRemoved (username : String) (d : Daemon) : Daemon :=
  if username ∈ d.known then forget G username d else d

/-- The accounts among the items a search returned. -/
def currentAccounts (items : List Attributes) : KeyMap String Bool :=
  items.foldl (fun current attrs =>
    match attrs.lookup "username" with
    | some username => current.insert username true
    | none => current) ∅

/-- The rest of `reload` once its search has returned. The two tables are visited in the orders
the run chooses. -/
def reload (items : List Attributes) (ofCurrent ofKnown : RangeOrder String) (d : Daemon) :
    Daemon :=
  let current := currentAccounts items
  let d := (ofCurrent.arrange current.keys).foldl (fun d username => learn G username d) d
  let removed := (ofKnown.arrange d.known.keys).filter (fun username => username ∉ current)
  removed.foldl (fun d username => forget G username d) d

def onServiceDbusSignal (signalName : String) (d : Daemon) : Daemon :=
  if signalName = "CollectionCreated" ∨ signalName = "CollectionDeleted" ∨
      signalName = "CollectionChanged" then
    { d with reloads := d.reloads ++ [⟨false, .running⟩] }
  else d

/-- The service listener is connected. -/
def Phase.armed : Phase → Bool
  | gettingBus | watching => true
  | opening | loading | quit => false

/-- The callback of a reload whose search has returned: a failed search makes `start` fail, and
a later reload only log a warning. -/
def complete (r : Reload) (ofCurrent ofKnown : RangeOrder String) (d : Daemon) : Daemon :=
  match r.search with
  | .running => d
  | .failed => if r.initial then { d with phase := .quit } else d
  | .found items =>
    let d := reload G items ofCurrent ofKnown d
    if r.initial then { d with phase := .gettingBus } else d

inductive Input
  | opened (ok : Bool)
  | answered (i : ℕ) (search : Search)
  | completed (i : ℕ) (ofCurrent ofKnown : RangeOrder String)
  | gotBus (ok : Bool)
  | serviceSignal (signalName : String)
  | dbusAdded (username : String)
  | dbusRemoved (username : String)

/-- One callback of the main loop; an input nothing waits for or listens to has no effect. -/
def Daemon.step (d : Daemon) : Input → Daemon
  | .opened ok =>
    if d.phase = .opening then
      if ok then { d with phase := .loading, reloads := d.reloads ++ [⟨true, .running⟩] }
      else { d with phase := .quit }
    else d
  | .answered i search =>
    match d.reloads[i]? with
    | some ⟨initial, .running⟩ => { d with reloads := d.reloads.set i ⟨initial, search⟩ }
    | _ => d
  | .completed i ofCurrent ofKnown =>
    match d.reloads[i]? with
    | some ⟨_, .running⟩ | none => d
    | some r =>
      if d.phase = .quit then d
      else complete G r ofCurrent ofKnown { d with reloads := d.reloads.eraseIdx i }
  | .gotBus ok =>
    if d.phase = .gettingBus then { d with phase := if ok then .watching else .quit } else d
  | .serviceSignal signalName => if d.phase.armed then onServiceDbusSignal signalName d else d
  | .dbusAdded username => if d.phase = .watching then onDbusAccountAdded G username d else d
  | .dbusRemoved username => if d.phase = .watching then onDbusAccountRemoved G username d else d

def Daemon.run (d : Daemon) (inputs : List Input) : Daemon := inputs.foldl (Daemon.step G) d

end Handlers

/-- The signals emitted so far describe the known accounts, and the volumes are theirs. -/
structure Inv (G : VolumeCalls) (d : Daemon) : Prop where
  accounts : Describes AccountSignal.username AccountSignal.isAdded d.accountSignals
    {u | u ∈ d.known}
  table : ∀ u, d.volumes.lookup u = if u ∈ d.known then some (Volume.new G u) else none
  volumes : Describes VolumeSignal.dbusID VolumeSignal.isAdded d.volumeSignals
    (volumeID '' {u | u ∈ d.known})

variable {G : VolumeCalls} {d : Daemon} {u : String}

theorem volumeID_injective : Function.Injective volumeID :=
  fun _ _ h => String.append_right_inj _ |>.mp h

theorem inv_new : Inv G Daemon.new where
  accounts := by
    have hnone : {u | u ∈ Daemon.new.known} = (∅ : Set String) := by
      ext u
      simp [Daemon.new]
    rw [hnone]
    exact describes_nil
  table u := by simp [Daemon.new]
  volumes := by
    have hnone : volumeID '' {u | u ∈ Daemon.new.known} = (∅ : Set String) := by
      ext u
      simp [Daemon.new]
    rw [hnone]
    exact describes_nil

/-- The invariant reads neither the phase nor the reloads. -/
theorem Inv.congr {d' : Daemon} (h : Inv G d) (hk : d'.known = d.known)
    (hv : d'.volumes = d.volumes) (ha : d'.accountSignals = d.accountSignals)
    (hs : d'.volumeSignals = d.volumeSignals) : Inv G d' where
  accounts := by
    rw [hk, ha]
    exact h.accounts
  table := by
    rw [hk, hv]
    exact h.table
  volumes := by
    rw [hk, hs]
    exact h.volumes

theorem Inv.learn (h : Inv G d) (u : String) : Inv G (learn G u d) := by
  rw [AccountWatcher.learn]
  split_ifs with hu
  · exact h
  have hknown : {v | v ∈ d.known.insert u true} = insert u {v | v ∈ d.known} := by
    ext v
    simp [AList.mem_insert]
  have hid : volumeID u ∉ volumeID '' {v | v ∈ d.known} := by
    rintro ⟨v, hv, hvu⟩
    exact hu (volumeID_injective hvu ▸ hv)
  constructor
  · simp only [accountAdded, onAccountAdded, hknown]
    exact h.accounts.switchOn rfl hu rfl
  · intro v
    simp only [accountAdded, onAccountAdded, lookup_insert_ite, AList.mem_insert, h.table v]
    by_cases hv : v = u
    · simp [hv]
    · simp [hv]
  · simp only [accountAdded, onAccountAdded, hknown, Set.image_insert_eq]
    exact h.volumes.switchOn rfl hid rfl

theorem Inv.forget (h : Inv G d) (hu : u ∈ d.known) : Inv G (forget G u d) := by
  have hknown : {v | v ∈ d.known.erase u} = {v | v ∈ d.known} \ {u} := by
    ext v
    simp [AList.mem_erase, and_comm]
  have hid : volumeID u ∈ volumeID '' {v | v ∈ d.known} := ⟨u, hu, rfl⟩
  have hvol : d.volumes.lookup u = some (Volume.new G u) := by rw [h.table, if_pos hu]
  constructor
  · simp only [AccountWatcher.forget, accountRemoved, onAccountRemoved, hvol, hknown]
    exact h.accounts.switchOff rfl hu rfl
  · intro v
    simp only [AccountWatcher.forget, accountRemoved, onAccountRemoved, hvol, lookup_erase_ite,
      AList.mem_erase, h.table v]
    by_cases hv : v = u
    · simp [hv]
    · simp [hv]
  · simp only [AccountWatcher.forget, accountRemoved, onAccountRemoved, hvol, hknown,
      Set.image_sdiff volumeID_injective, Set.image_singleton]
    exact h.volumes.switchOff rfl hid rfl

/-- Which accounts are known after one more is. -/
theorem mem_known_learn {v : String} : v ∈ (learn G u d).known ↔ v = u ∨ v ∈ d.known := by
  rw [learn]
  split_ifs with hu
  · constructor
    · exact .inr
    · rintro (rfl | hv)
      · exact hu
      · exact hv
  · simp [accountAdded, onAccountAdded, AList.mem_insert]

theorem mem_known_forget {v : String} : v ∈ (forget G u d).known ↔ v ≠ u ∧ v ∈ d.known := by
  rw [forget, accountRemoved, onAccountRemoved]
  split <;> simp [AList.mem_erase]

theorem mem_known_learn_all (us : List String) (d : Daemon) {v : String} :
    v ∈ (us.foldl (fun d username => learn G username d) d).known ↔ v ∈ us ∨ v ∈ d.known := by
  induction us generalizing d with
  | nil => simp
  | cons u us ih =>
    rw [List.foldl_cons, ih, mem_known_learn, List.mem_cons]
    tauto

theorem mem_known_forget_all (us : List String) (d : Daemon) {v : String} :
    v ∈ (us.foldl (fun d username => forget G username d) d).known ↔ v ∉ us ∧ v ∈ d.known := by
  induction us generalizing d with
  | nil => simp
  | cons u us ih =>
    rw [List.foldl_cons, ih, mem_known_forget, List.mem_cons]
    tauto

theorem Inv.learn_all (h : Inv G d) (us : List String) :
    Inv G (us.foldl (fun d username => AccountWatcher.learn G username d) d) := by
  induction us generalizing d with
  | nil => exact h
  | cons u us ih => exact ih (h.learn u)

/-- Accounts that are known and listed once each can be forgotten one after the other. -/
theorem Inv.forget_all (h : Inv G d) {us : List String} (hd : us.Nodup)
    (hus : ∀ u ∈ us, u ∈ d.known) :
    Inv G (us.foldl (fun d username => AccountWatcher.forget G username d) d) := by
  induction us generalizing d with
  | nil => exact h
  | cons u us ih =>
    obtain ⟨hu, hd⟩ := List.nodup_cons.mp hd
    refine ih (h.forget (hus u List.mem_cons_self)) hd ?_
    intro v hv
    exact mem_known_forget.mpr ⟨fun hvu => hu (hvu ▸ hv), hus v (List.mem_cons_of_mem u hv)⟩

/-- A reload leaves known exactly the accounts its search found. -/
theorem mem_known_reload (items : List Attributes) (ofCurrent ofKnown : RangeOrder String)
    (d : Daemon) {v : String} :
    v ∈ (reload G items ofCurrent ofKnown d).known ↔ v ∈ currentAccounts items := by
  simp only [reload]
  rw [mem_known_forget_all, List.mem_filter, RangeOrder.mem_arrange, ← AList.mem_keys,
    mem_known_learn_all, RangeOrder.mem_arrange, ← AList.mem_keys]
  simp only [decide_eq_true_eq]
  tauto

theorem Inv.reload (h : Inv G d) (items : List Attributes)
    (ofCurrent ofKnown : RangeOrder String) :
    Inv G (reload G items ofCurrent ofKnown d) := by
  refine (h.learn_all _).forget_all ?_ ?_
  · exact (ofKnown.nodup_arrange (AList.keys_nodup _)).filter _
  · intro u hu
    exact AList.mem_keys.mpr ((ofKnown.mem_arrange).mp (List.mem_filter.mp hu).1)

theorem Inv.complete (h : Inv G d) (r : Reload) (ofCurrent ofKnown : RangeOrder String) :
    Inv G (complete G r ofCurrent ofKnown d) := by
  rw [AccountWatcher.complete]
  split
  · exact h
  · split_ifs
    · exact h.congr rfl rfl rfl rfl
    · exact h
  · next items _ =>
    dsimp only
    split_ifs
    · exact (h.reload items ofCurrent ofKnown).congr rfl rfl rfl rfl
    · exact h.reload items ofCurrent ofKnown

theorem Inv.step (h : Inv G d) (input : Input) : Inv G (d.step G input) := by
  cases input with
  | opened ok =>
    rw [Daemon.step]
    split_ifs
    · exact h.congr rfl rfl rfl rfl
    · exact h.congr rfl rfl rfl rfl
    · exact h
  | answered i search =>
    rw [Daemon.step]
    split
    · exact h.congr rfl rfl rfl rfl
    · exact h
  | completed i ofCurrent ofKnown =>
    rw [Daemon.step]
    split
    · exact h
    · exact h
    · split_ifs
      · exact h
      · have herase : Inv G { d with reloads := d.reloads.eraseIdx i } := h.congr rfl rfl rfl rfl
        exact herase.complete _ _ _
  | gotBus ok =>
    rw [Daemon.step]
    split
    · exact h.congr rfl rfl rfl rfl
    · exact h
  | serviceSignal signalName =>
    rw [Daemon.step, onServiceDbusSignal]
    split_ifs
    · exact h.congr rfl rfl rfl rfl
    · exact h
    · exact h
  | dbusAdded username =>
    rw [Daemon.step]
    split_ifs
    · exact h.learn username
    · exact h
  | dbusRemoved username =>
    rw [Daemon.step, onDbusAccountRemoved]
    split_ifs with hw hu
    · exact h.forget hu
    · exact h
    · exact h

theorem Inv.run (h : Inv G d) (inputs : List Input) : Inv G (d.run G inputs) := by
  induction inputs generalizing d with
  | nil => exact h
  | cons input inputs ih => exact ih (h.step input)

theorem Inv.mem_volumes (h : Inv G d) : u ∈ d.volumes ↔ u ∈ d.known := by
  rw [← AList.lookup_isSome, h.table]
  split_ifs with hu <;> simp [hu]

/-- Whatever the order of signals, searches and their completions, the signals for an account
alternate, those for its volume alternate with them, and the two tables hold the accounts that
were added last. -/
theorem account_signals_alternate (G : VolumeCalls) (inputs : List Input) (u : String) :
    let d := Daemon.new.run G inputs
    let signals := trace AccountSignal.username AccountSignal.isAdded u d.accountSignals
    let volumeSignals := trace VolumeSignal.dbusID VolumeSignal.isAdded (volumeID u) d.volumeSignals
    Alternates signals ∧ (u ∈ d.known ↔ signals.getLast? = some true) ∧
      (u ∈ d.volumes ↔ u ∈ d.known) ∧
      Alternates volumeSignals ∧ (u ∈ d.volumes ↔ volumeSignals.getLast? = some true) := by
  intro d signals volumeSignals
  have h : Inv G d := inv_new.run inputs
  refine ⟨h.accounts.alternates u, h.accounts.mem_iff u, h.mem_volumes,
    h.volumes.alternates (volumeID u), ?_⟩
  rw [h.mem_volumes, ← h.volumes.mem_iff (volumeID u)]
  exact (volumeID_injective.mem_set_image (s := {v | v ∈ d.known})).symm

end ProtonDrive.AccountWatcher
