import ProtonDrive.AccountWatcher
import ProtonDrive.PercentEscapes

/-!
# What clients of the volume monitor see

A client asks for the list of volumes once and then follows the signals that add and remove volumes.
However the callbacks of the daemon are ordered, what it has gathered is what the list would say.
-/

namespace ProtonDrive.VolumeListing
open KeyedMaps AccountWatcher PercentEscapes

abbrev Dict := List (String × Variant)

section Machine

variable (G : VolumeCalls)

/-- The volumes of `list`, in the order of the hash table. -/
def listVolumes (order : RangeOrder String) (d : Daemon) : List Dict :=
  (order.arrange d.volumes.keys).filterMap fun username =>
    (d.volumes.lookup username).map fun vol => vol.toVariant G

def dictID (volume : Dict) : Option String :=
  match volume.lookup "id" with
  | some (.string id) => some id
  | _ => none

/-- A client adds a volume of the list. -/
def gather (seen : KeyMap String Dict) (volume : Dict) : KeyMap String Dict :=
  match dictID volume with
  | some id => seen.insert id volume
  | none => seen

def observe (volumes : List Dict) : KeyMap String Dict := volumes.foldl gather ∅

/-- A client follows one signal. -/
def follow (seen : KeyMap String Dict) : VolumeSignal → KeyMap String Dict
  | .added id volume => seen.insert id volume
  | .removed id _ => seen.erase id

end Machine

section Following

variable {G : VolumeCalls} {d d' d'' : Daemon} {u : String} {seen : KeyMap String Dict}

/-- Every volume is the one of its account. -/
def Titled (G : VolumeCalls) (d : Daemon) : Prop :=
  ∀ u vol, d.volumes.lookup u = some vol → vol = Volume.new G u

/-- The client has seen exactly the volumes that there are. -/
structure Shows (G : VolumeCalls) (seen : KeyMap String Dict) (d : Daemon) : Prop where
  volume : ∀ u, seen.lookup (volumeID u) = (d.volumes.lookup u).map fun vol => vol.toVariant G
  other : ∀ id, (∀ u, id ≠ volumeID u) → seen.lookup id = none

/-- Between two states of the daemon, the signals tell a client all that changes. -/
def Tells (G : VolumeCalls) (d d' : Daemon) : Prop :=
  Titled G d → Titled G d' ∧ ∃ signals, d'.volumeSignals = d.volumeSignals ++ signals ∧
    ∀ seen, Shows G seen d → Shows G (signals.foldl follow seen) d'

theorem Tells.of_eq (hv : d'.volumes = d.volumes) (hs : d'.volumeSignals = d.volumeSignals) :
    Tells G d d' := by
  intro ht
  refine ⟨by rwa [Titled, hv], [], by rw [hs, List.append_nil], fun seen h => ?_⟩
  exact ⟨by rw [hv]; exact h.volume, h.other⟩

theorem Tells.refl (d : Daemon) : Tells G d d := .of_eq rfl rfl

theorem Tells.trans (h : Tells G d d') (h' : Tells G d' d'') : Tells G d d'' := by
  intro ht
  obtain ⟨ht', signals, hs, hshows⟩ := h ht
  obtain ⟨ht'', signals', hs', hshows'⟩ := h' ht'
  refine ⟨ht'', signals ++ signals', by rw [hs', hs, List.append_assoc], fun seen hseen => ?_⟩
  rw [List.foldl_append]
  exact hshows' _ (hshows seen hseen)

theorem tells_learn (u : String) (d : Daemon) : Tells G d (learn G u d) := by
  rw [learn]
  split_ifs
  · exact .refl d
  intro ht
  refine ⟨?_, [.added (volumeID u) ((Volume.new G u).toVariant G)], rfl, fun seen h => ⟨?_, ?_⟩⟩
  · intro v vol hv
    simp only [accountAdded, onAccountAdded, lookup_insert_ite] at hv
    split_ifs at hv with hvu
    · cases hv
      rw [hvu]
    · exact ht v vol hv
  · intro v
    simp only [List.foldl_cons, List.foldl_nil, follow, accountAdded, onAccountAdded,
      lookup_insert_ite, volumeID_injective.eq_iff]
    split_ifs
    · rfl
    · exact h.volume v
  · intro id hid
    simp only [List.foldl_cons, List.foldl_nil, follow, lookup_insert_ite, if_neg (hid u)]
    exact h.other id hid

theorem tells_forget (u : String) (d : Daemon) : Tells G d (forget G u d) := by
  rw [forget, accountRemoved, onAccountRemoved]
  split
  · exact .of_eq rfl rfl
  rename_i vol hvol
  intro ht
  have hid : vol.id = volumeID u := by rw [ht u vol hvol]; rfl
  refine ⟨?_, [.removed vol.id (vol.toVariant G)], rfl, fun seen h => ⟨?_, ?_⟩⟩
  · intro v vol' hv
    simp only [lookup_erase_ite] at hv
    split_ifs at hv
    exact ht v vol' hv
  · intro v
    simp only [List.foldl_cons, List.foldl_nil, follow, lookup_erase_ite, hid,
      volumeID_injective.eq_iff]
    split_ifs
    · rfl
    · exact h.volume v
  · intro id hid'
    simp only [List.foldl_cons, List.foldl_nil, follow, lookup_erase_ite]
    split_ifs
    · rfl
    · exact h.other id hid'

theorem tells_foldl {f : Daemon → String → Daemon} (hf : ∀ u d, Tells G d (f d u))
    (us : List String) (d : Daemon) : Tells G d (us.foldl f d) := by
  induction us generalizing d with
  | nil => exact .refl d
  | cons u us ih => exact (hf u d).trans (ih _)

theorem tells_reload (items : List Attributes) (ofCurrent ofKnown : RangeOrder String)
    (d : Daemon) : Tells G d (reload G items ofCurrent ofKnown d) :=
  (tells_foldl tells_learn _ d).trans (tells_foldl tells_forget _ _)

theorem tells_complete (r : Reload) (ofCurrent ofKnown : RangeOrder String) (d : Daemon) :
    Tells G d (complete G r ofCurrent ofKnown d) := by
  rw [complete]
  split
  · exact .refl d
  · split_ifs
    · exact .of_eq rfl rfl
    · exact .refl d
  · rename_i items _
    have hreload := tells_reload (G := G) items ofCurrent ofKnown d
    dsimp only
    split_ifs
    · exact hreload.trans (.of_eq rfl rfl)
    · exact hreload

theorem tells_step (d : Daemon) (input : Input) : Tells G d (d.step G input) := by
  cases input with
  | opened ok =>
    rw [Daemon.step]
    split_ifs <;> exact .of_eq rfl rfl
  | answered i search =>
    rw [Daemon.step]
    split <;> exact .of_eq rfl rfl
  | completed i ofCurrent ofKnown =>
    rw [Daemon.step]
    split
    · exact .refl d
    · exact .refl d
    · split_ifs
      · exact .refl d
      · have herase : Tells G d { d with reloads := d.reloads.eraseIdx i } := .of_eq rfl rfl
        exact herase.trans (tells_complete _ _ _ _)
  | gotBus ok =>
    rw [Daemon.step]
    split <;> exact .of_eq rfl rfl
  | serviceSignal signalName =>
    rw [Daemon.step, onServiceDbusSignal]
    split_ifs <;> exact .of_eq rfl rfl
  | dbusAdded username =>
    rw [Daemon.step]
    split_ifs
    · exact tells_learn username d
    · exact .refl d
  | dbusRemoved username =>
    rw [Daemon.step, onDbusAccountRemoved]
    split_ifs
    · exact tells_forget username d
    · exact .refl d
    · exact .refl d

theorem tells_run (inputs : List Input) (d : Daemon) : Tells G d (d.run G inputs) := by
  induction inputs generalizing d with
  | nil => exact .refl d
  | cons input inputs ih => exact (tells_step d input).trans (ih _)

theorem gather_toVariant (G : VolumeCalls) (u : String) (seen : KeyMap String Dict) :
    gather seen ((Volume.new G u).toVariant G) =
      seen.insert (volumeID u) ((Volume.new G u).toVariant G) := rfl

/-- What a client has seen after it was given the volumes of some accounts. -/
theorem lookup_gathered (ht : Titled G d) (us : List String) (seen : KeyMap String Dict) :
    let gathered := (us.filterMap fun u =>
      (d.volumes.lookup u).map fun vol => vol.toVariant G).foldl gather seen
    (∀ v, gathered.lookup (volumeID v) = if v ∈ us ∧ (d.volumes.lookup v).isSome then
      (d.volumes.lookup v).map fun vol => vol.toVariant G else seen.lookup (volumeID v)) ∧
    ∀ id, (∀ u, id ≠ volumeID u) → gathered.lookup id = seen.lookup id := by
  induction us generalizing seen with
  | nil => simp
  | cons u us ih =>
    intro gathered
    cases hvol : d.volumes.lookup u with
    | none =>
      have hskip : gathered = (us.filterMap fun u =>
          (d.volumes.lookup u).map fun vol => vol.toVariant G).foldl gather seen := by
        simp only [gathered, List.filterMap_cons, hvol, Option.map_none]
      rw [hskip]
      refine ⟨fun v => ?_, (ih seen).2⟩
      rw [(ih seen).1 v]
      refine if_congr ?_ rfl rfl
      rw [List.mem_cons]
      refine and_congr_left fun hsome => (or_iff_right ?_).symm
      rintro rfl
      rw [hvol] at hsome
      cases hsome
    | some vol =>
      obtain rfl := ht u vol hvol
      have hadd : gathered = (us.filterMap fun u =>
          (d.volumes.lookup u).map fun vol => vol.toVariant G).foldl gather
            (seen.insert (volumeID u) ((Volume.new G u).toVariant G)) := by
        simp only [gathered, List.filterMap_cons, hvol, Option.map_some, List.foldl_cons,
          gather_toVariant]
      rw [hadd]
      refine ⟨fun v => ?_, fun id hid => ?_⟩
      · rw [(ih _).1 v, lookup_insert_ite]
        by_cases hv : v = u
        · subst hv
          simp [hvol]
        · simp [hv, volumeID_injective.eq_iff]
      · rw [(ih _).2 id hid, lookup_insert_ite, if_neg (hid u)]

theorem shows_observe (ht : Titled G d) (order : RangeOrder String) :
    Shows G (observe (listVolumes G order d)) d := by
  obtain ⟨hvolumes, hother⟩ := lookup_gathered ht (order.arrange d.volumes.keys) ∅
  refine ⟨fun u => ?_, fun id hid => ?_⟩
  · rw [observe, listVolumes, hvolumes u]
    split_ifs with h
    · rfl
    · have hnone : d.volumes.lookup u = none := by
        rw [← Option.not_isSome_iff_eq_none]
        intro hsome
        refine h ⟨?_, hsome⟩
        rw [RangeOrder.mem_arrange]
        exact AList.mem_keys.mp (AList.lookup_isSome.mp hsome)
      rw [hnone]
      exact AList.lookup_empty _
  · rw [observe, listVolumes, hother id hid]
    exact AList.lookup_empty _

/-- A client that is given the list and then follows the signals has seen what the list would say
now. -/
theorem following_is_listing (G : VolumeCalls) (before after : List Input)
    (order order' : RangeOrder String) :
    let d := Daemon.new.run G before
    let d' := d.run G after
    ∃ signals, d'.volumeSignals = d.volumeSignals ++ signals ∧
      ∀ id, (signals.foldl follow (observe (listVolumes G order d))).lookup id =
        (observe (listVolumes G order' d')).lookup id := by
  intro d d'
  have hnew : Titled G Daemon.new := fun u vol h => by cases h
  have ht : Titled G d := (tells_run before Daemon.new hnew).1
  obtain ⟨ht', signals, hs, hshows⟩ := tells_run (G := G) after d ht
  refine ⟨signals, hs, fun id => ?_⟩
  have hfollowed := hshows _ (shows_observe ht order)
  have hlisted := shows_observe ht' order'
  by_cases hid : ∃ u, id = volumeID u
  · obtain ⟨u, rfl⟩ := hid
    rw [hfollowed.volume, hlisted.volume]
  · rw [hfollowed.other id fun u h => hid ⟨u, h⟩, hlisted.other id fun u h => hid ⟨u, h⟩]

end Following

section Uris

def alphanumerics : List Char :=
  ['A', 'B', 'C', 'D', 'E', 'F', 'G', 'H', 'I', 'J', 'K', 'L', 'M', 'N', 'O', 'P',
   'Q', 'R', 'S', 'T', 'U', 'V', 'W', 'X', 'Y', 'Z', 'a', 'b', 'c', 'd', 'e', 'f',
   'g', 'h', 'i', 'j', 'k', 'l', 'm', 'n', 'o', 'p', 'q', 'r', 's', 't', 'u', 'v',
   'w', 'x', 'y', 'z', '0', '1', '2', '3', '4', '5', '6', '7', '8', '9']

theorem ascii_alphanumerics : alphanumerics.all fun c => c.toNat < 128 ∧ c ≠ '%' := by
  decide +kernel

/-- Alphanumerics and a few marks. -/
def marked (marks : List Char) (h : marks.all fun c => c.toNat < 128 ∧ c ≠ '%') : Kept where
  chars := alphanumerics ++ marks
  ascii := by
    intro c hc
    rcases List.mem_append.mp hc with hc | hc
    · exact (of_decide_eq_true (List.all_eq_true.mp ascii_alphanumerics c hc)).1
    · exact (of_decide_eq_true (List.all_eq_true.mp h c hc)).1
  percent := by
    intro hc
    rcases List.mem_append.mp hc with hc | hc
    · exact (of_decide_eq_true (List.all_eq_true.mp ascii_alphanumerics _ hc)).2 rfl
    · exact (of_decide_eq_true (List.all_eq_true.mp h _ hc)).2 rfl

/-- What `g_uri_escape_string` leaves as it is. -/
def unreserved : Kept := marked ['-', '.', '_', '~'] (by decide)

/-- `_ALWAYS_SAFE` of `urllib.parse`. -/
def alwaysSafe : Kept := marked ['_', '.', '-', '~'] (by decide)

/-- `GLib.Uri.escape_string (s, null, false)`. -/
def escapeString (s : String) : String := String.ofList (escape unreserved (bytesOf s))

/-- `urllib.parse.quote(s, safe="")`. -/
def quote (s : String) : String := String.ofList (escape alwaysSafe (bytesOf s))

/-- The URI that the wizard tells the user to mount. -/
def mountUri (username : String) : String := "proton://" ++ quote username ++ "/"

theorem escapeString_eq_quote (s : String) : escapeString s = quote s := by
  have hchars : ∀ c, c ∈ unreserved.chars ↔ c ∈ alwaysSafe.chars := by
    intro c
    simp only [unreserved, alwaysSafe, marked, List.mem_append, List.mem_cons, List.not_mem_nil,
      or_false]
    tauto
  rw [escapeString, quote, escape_congr hchars]

theorem unescape_quote (s : String) : unescape (quote s).toList = some (bytesOf s) := by
  rw [quote, String.toList_ofList, unescape_escape]

/-- What lies between the scheme and the slash at the end. -/
theorem host_mountUri {username host : String}
    (h : mountUri username = "proton://" ++ host ++ "/") :
    host = quote username := by
  have hlist := congrArg String.toList h
  simp only [mountUri, String.toList_append, List.append_assoc, List.append_cancel_left_eq,
    List.append_cancel_right_eq] at hlist
  exact (String.toList_inj.mp hlist).symm

/-- At any time the volumes that are listed are those of the known accounts, each under the URI that
the wizard tells for it, and the host of that URI reads back as the account. -/
theorem listed_uris_name_accounts (serialize : String → Option Variant) (inputs : List Input)
    (order : RangeOrder String) :
    let G : VolumeCalls := ⟨escapeString, serialize⟩
    let d := Daemon.new.run G inputs
    (∀ uri, (∃ volume ∈ listVolumes G order d,
        volume.lookup "activation-uri" = some (.string uri)) ↔
      ∃ u ∈ d.known, uri = mountUri u) ∧
    ∀ u host, mountUri u = "proton://" ++ host ++ "/" →
      unescape host.toList = some (bytesOf u) := by
  intro G d
  have hinv : Inv G d := inv_new.run inputs
  have huri : ∀ u, ((Volume.new G u).toVariant G).lookup "activation-uri" =
      some (.string (mountUri u)) := by
    intro u
    rw [mountUri, ← escapeString_eq_quote]
    rfl
  refine ⟨fun uri => ⟨?_, ?_⟩, fun u host h => ?_⟩
  · rintro ⟨volume, hmem, hlookup⟩
    obtain ⟨u, -, hmap⟩ := List.mem_filterMap.mp hmem
    obtain ⟨vol, hvol, rfl⟩ := Option.map_eq_some_iff.mp hmap
    rw [hinv.table] at hvol
    split_ifs at hvol with hknown
    obtain rfl := Option.some.inj hvol
    rw [huri] at hlookup
    cases hlookup
    exact ⟨u, hknown, rfl⟩
  · rintro ⟨u, hknown, rfl⟩
    refine ⟨_, List.mem_filterMap.mpr ⟨u, ?_, ?_⟩, huri u⟩
    · rw [RangeOrder.mem_arrange]
      exact AList.mem_keys.mp (hinv.mem_volumes.mpr hknown)
    · rw [hinv.table, if_pos hknown]
      rfl
  · rw [host_mountUri h, unescape_quote]

end Uris

end ProtonDrive.VolumeListing
