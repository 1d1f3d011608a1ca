import Daobell.Bencode.RoundTrip
import Daobell.Lib.BigEndian
import Daobell.Tracker.Response

/-!
From what a tracker says to what the program reads. A tracker encodes a
dictionary, with its list of peers as a string of six bytes for each; the
program finds in it what the tracker put there, whatever else the dictionary
holds.
-/

namespace Daobell

open Lib BencodeValue BencodeParser

/-- What a tracker says: which of the optional entries are there, and the peers. -/
structure RespContent where
  failureReason : Option ByteString
  warningMessage : Option ByteString
  trackerId : Option ByteString
  interval : Option UInt32
  minInterval : Option UInt32
  complete : Option UInt32
  incomplete : Option UInt32
  peers : List (UInt32 × UInt16)
  peers_lt : 6 * peers.length < 2 ^ 63

def portBytes (port : UInt16) : Bytes := [(port >>> 8).toUInt8, port.toUInt8]

def peerBytes (peer : UInt32 × UInt16) : Bytes := wordBytes peer.1 ++ portBytes peer.2

@[simp] theorem length_peerBytes (peer : UInt32 × UInt16) : (peerBytes peer).length = 6 := rfl

theorem length_flatMap_peerBytes (peers : List (UInt32 × UInt16)) :
    (peers.flatMap peerBytes).length = 6 * peers.length := by
  induction peers with
  | nil => rfl
  | cons peer peers ih =>
      rw [List.flatMap_cons, List.length_append, ih, length_peerBytes, List.length_cons]
      omega

def RespContent.peersString (c : RespContent) : ByteString :=
  ⟨c.peers.flatMap peerBytes, by rw [length_flatMap_peerBytes]; exact c.peers_lt⟩

def intOf (n : UInt32) : BencodeValue := .bencodeInt (Int64.ofNat n.toNat)

def respKeys : List String :=
  ["failure reason", "warning message", "tracker id", "interval", "min interval", "complete",
    "incomplete", "peers"]

def failureReasonKey : ByteString := ⟨bytesOf "failure reason", by decide⟩

def warningMessageKey : ByteString := ⟨bytesOf "warning message", by decide⟩

def trackerIdKey : ByteString := ⟨bytesOf "tracker id", by decide⟩

def intervalKey : ByteString := ⟨bytesOf "interval", by decide⟩

def minIntervalKey : ByteString := ⟨bytesOf "min interval", by decide⟩

def completeKey : ByteString := ⟨bytesOf "complete", by decide⟩

def incompleteKey : ByteString := ⟨bytesOf "incomplete", by decide⟩

def peersKey : ByteString := ⟨bytesOf "peers", by decide⟩

def RespContent.entries (c : RespContent) : DictMap :=
  (c.failureReason.toList.map fun s => (failureReasonKey, .bencodeString s)) ++
    (c.warningMessage.toList.map fun s => (warningMessageKey, .bencodeString s)) ++
    (c.trackerId.toList.map fun s => (trackerIdKey, .bencodeString s)) ++
    (c.interval.toList.map fun n => (intervalKey, intOf n)) ++
    (c.minInterval.toList.map fun n => (minIntervalKey, intOf n)) ++
    (c.complete.toList.map fun n => (completeKey, intOf n)) ++
    (c.incomplete.toList.map fun n => (incompleteKey, intOf n)) ++
    [(peersKey, .bencodeString c.peersString)]

/-- The dictionary says this, and possibly more under other keys. -/
structure Says (es : DictMap) (c : RespContent) : Prop where
  failureReason : valuesOf "failure reason" es = c.failureReason.toList.map .bencodeString
  warningMessage : valuesOf "warning message" es = c.warningMessage.toList.map .bencodeString
  trackerId : valuesOf "tracker id" es = c.trackerId.toList.map .bencodeString
  interval : valuesOf "interval" es = c.interval.toList.map intOf
  minInterval : valuesOf "min interval" es = c.minInterval.toList.map intOf
  complete : valuesOf "complete" es = c.complete.toList.map intOf
  incomplete : valuesOf "incomplete" es = c.incomplete.toList.map intOf
  peers : valuesOf "peers" es = [.bencodeString c.peersString]

theorem valuesOf_optional {α : Type} (key : String) (k : ByteString) (f : α → BencodeValue)
    (o : Option α) : valuesOf key (o.toList.map fun v => (k, f v)) =
      if k.bytes = bytesOf key then o.toList.map f else [] := by
  cases o with
  | none => simp [valuesOf]
  | some v => by_cases h : k.bytes = bytesOf key <;> simp [valuesOf, h]

theorem valuesOf_singleton (key : String) (k : ByteString) (v : BencodeValue) :
    valuesOf key [(k, v)] = if k.bytes = bytesOf key then [v] else [] := by
  by_cases h : k.bytes = bytesOf key <;> simp [valuesOf, h]

theorem perm_toList_map {α β : Type} {f : α → β} {o : Option α} {l : List β}
    (h : l.Perm (o.toList.map f)) : l = o.toList.map f := by
  cases o with
  | none => exact List.perm_nil.mp h
  | some v => exact List.perm_singleton.mp h

/-- A dictionary of these entries and of others, in whatever order, says this. -/
theorem says_of_perm {c : RespContent} {es others : DictMap} (h : es.Perm (c.entries ++ others))
    (hothers : ∀ e ∈ others, ∀ key ∈ respKeys, e.1.bytes ≠ bytesOf key) : Says es c := by
  have hvalues : ∀ key ∈ respKeys, (valuesOf key es).Perm (valuesOf key c.entries) := by
    intro key hkey
    have hnone : valuesOf key others = [] := by
      rw [valuesOf, List.map_eq_nil_iff, List.filter_eq_nil_iff]
      exact fun e he => by simpa using hothers e he key hkey
    have hperm := valuesOf_perm key h
    rwa [valuesOf_append, hnone, List.append_nil] at hperm
  have hstring : ∀ {key : String} {o : Option ByteString}, key ∈ respKeys →
      valuesOf key c.entries = o.toList.map .bencodeString →
      valuesOf key es = o.toList.map .bencodeString :=
    fun hkey heq => perm_toList_map (heq ▸ hvalues _ hkey)
  have hint : ∀ {key : String} {o : Option UInt32}, key ∈ respKeys →
      valuesOf key c.entries = o.toList.map intOf → valuesOf key es = o.toList.map intOf :=
    fun hkey heq => perm_toList_map (heq ▸ hvalues _ hkey)
  constructor
  · exact hstring (by decide) (by
      simp +decide [RespContent.entries, valuesOf_append, valuesOf_optional, valuesOf_singleton])
  · exact hstring (by decide) (by
      simp +decide [RespContent.entries, valuesOf_append, valuesOf_optional, valuesOf_singleton])
  · exact hstring (by decide) (by
      simp +decide [RespContent.entries, valuesOf_append, valuesOf_optional, valuesOf_singleton])
  · exact hint (by decide) (by
      simp +decide [RespContent.entries, valuesOf_append, valuesOf_optional, valuesOf_singleton])
  · exact hint (by decide) (by
      simp +decide [RespContent.entries, valuesOf_append, valuesOf_optional, valuesOf_singleton])
  · exact hint (by decide) (by
      simp +decide [RespContent.entries, valuesOf_append, valuesOf_optional, valuesOf_singleton])
  · exact hint (by decide) (by
      simp +decide [RespContent.entries, valuesOf_append, valuesOf_optional, valuesOf_singleton])
  · refine List.perm_singleton.mp ((hvalues "peers" (by decide)).trans (.of_eq ?_))
    simp +decide [RespContent.entries, valuesOf_append, valuesOf_optional, valuesOf_singleton]

structure TrackerAnnounceResp.Tells (ret : TrackerAnnounceResp) (c : RespContent) : Prop where
  failureReason : ret.failureReason = c.failureReason.elim [] ByteString.bytes
  hasFailureReason : hasFlag ret.has responseHasFailureReason = c.failureReason.isSome
  warningMessage : ret.warningMessage = c.warningMessage.elim [] ByteString.bytes
  hasWarningMessage : hasFlag ret.has responseHasWarningMessage = c.warningMessage.isSome
  trackerId : ret.trackerId = c.trackerId.elim [] ByteString.bytes
  hasTrackerId : hasFlag ret.has responseHasTrackerId = c.trackerId.isSome
  interval : ret.interval = c.interval.getD 0
  minInterval : ret.minInterval = c.minInterval.getD 0
  hasMinInterval : hasFlag ret.has responseHasMinInterval = c.minInterval.isSome
  complete : ret.complete = c.complete.getD 0
  incomplete : ret.incomplete = c.incomplete.getD 0
  peers : ret.peers = c.peers.map fun peer => ⟨afInet, wordBytes peer.1, portBytes peer.2⟩

/-! ### The tests -/

section

variable {α σ τ : Type} {key : String} {cast : BencodeValue → Option α} {set : α → σ → σ}

theorem onValue_frame {g : σ → τ} (h : ∀ value ret, g (set value ret) = g ret)
    (e : ByteString × BencodeValue) (ret : σ) : g (onValue key cast set e ret) = g ret := by
  rw [onValue]
  split
  · split
    · exact h _ _
    · rfl
  · rfl

theorem onValue_map {g : σ → τ} {f : α → τ → τ}
    (h : ∀ value ret, g (set value ret) = f value (g ret)) (e : ByteString × BencodeValue)
    (ret : σ) : g (onValue key cast set e ret) = onValue key cast f e (g ret) := by
  rw [onValue, onValue]
  split
  · cases cast e.2 with
    | some value => exact h _ _
    | none => rfl
  · rfl

/-- A test on every entry is one on the values under its key. -/
theorem foldl_onValue (es : DictMap) (a : σ) :
    es.foldl (fun a e => onValue key cast set e a) a =
      ((valuesOf key es).filterMap cast).foldl (fun a value => set value a) a := by
  induction es generalizing a with
  | nil => rfl
  | cons e es ih =>
      rw [List.foldl_cons, ih, onValue]
      split
      · rename_i hkey
        rw [valuesOf_cons_eq hkey]
        cases hcast : cast e.2 with
        | some value => rw [List.filterMap_cons_some hcast, List.foldl_cons]
        | none => rw [List.filterMap_cons_none hcast]
      · rename_i hkey
        rw [valuesOf_cons_ne hkey]

end

def flagged {τ : Type} (part : TrackerAnnounceResp → τ) (flag : UInt8)
    (ret : TrackerAnnounceResp) : τ × Bool := (part ret, hasFlag ret.has flag)

theorem hasFlag_response :
    hasFlag responseHasFailureReason responseHasFailureReason = true ∧
      hasFlag responseHasFailureReason responseHasWarningMessage = false ∧
      hasFlag responseHasFailureReason responseHasMinInterval = false ∧
      hasFlag responseHasFailureReason responseHasTrackerId = false ∧
      hasFlag responseHasWarningMessage responseHasFailureReason = false ∧
      hasFlag responseHasWarningMessage responseHasWarningMessage = true ∧
      hasFlag responseHasWarningMessage responseHasMinInterval = false ∧
      hasFlag responseHasWarningMessage responseHasTrackerId = false ∧
      hasFlag responseHasMinInterval responseHasFailureReason = false ∧
      hasFlag responseHasMinInterval responseHasWarningMessage = false ∧
      hasFlag responseHasMinInterval responseHasMinInterval = true ∧
      hasFlag responseHasMinInterval responseHasTrackerId = false ∧
      hasFlag responseHasTrackerId responseHasFailureReason = false ∧
      hasFlag responseHasTrackerId responseHasWarningMessage = false ∧
      hasFlag responseHasTrackerId responseHasMinInterval = false ∧
      hasFlag responseHasTrackerId responseHasTrackerId = true := by
  decide

theorem failureReason_respFields (ret : TrackerAnnounceResp) (e : ByteString × BencodeValue) :
    flagged (·.failureReason) responseHasFailureReason (respFields ret e) =
      onValue "failure reason" asString (fun value _ => (value.bytes, true)) e
        (flagged (·.failureReason) responseHasFailureReason ret) := by
  let g := flagged (·.failureReason) responseHasFailureReason
  change g (respFields ret e) = _
  simp only [respFields]
  rw [onValue_frame (g := g), onValue_frame (g := g), onValue_frame (g := g),
    onValue_frame (g := g), onValue_frame (g := g), onValue_frame (g := g),
    onValue_map (g := g)]
  all_goals simp [g, flagged, hasFlag_or, hasFlag_response]

theorem warningMessage_respFields (ret : TrackerAnnounceResp) (e : ByteString × BencodeValue) :
    flagged (·.warningMessage) responseHasWarningMessage (respFields ret e) =
      onValue "warning message" asString (fun value _ => (value.bytes, true)) e
        (flagged (·.warningMessage) responseHasWarningMessage ret) := by
  let g := flagged (·.warningMessage) responseHasWarningMessage
  change g (respFields ret e) = _
  simp only [respFields]
  rw [onValue_frame (g := g), onValue_frame (g := g), onValue_frame (g := g),
    onValue_frame (g := g), onValue_frame (g := g), onValue_map (g := g),
    onValue_frame (g := g)]
  all_goals simp [g, flagged, hasFlag_or, hasFlag_response]

theorem interval_respFields (ret : TrackerAnnounceResp) (e : ByteString × BencodeValue) :
    (respFields ret e).interval =
      onValue "interval" asInt (fun value _ => value.toUInt64.toUInt32) e ret.interval := by
  let g := TrackerAnnounceResp.interval
  change g (respFields ret e) = _
  simp only [respFields]
  rw [onValue_frame (g := g), onValue_frame (g := g), onValue_frame (g := g),
    onValue_frame (g := g), onValue_map (g := g), onValue_frame (g := g),
    onValue_frame (g := g)]
  all_goals simp [g]

theorem minInterval_respFields (ret : TrackerAnnounceResp) (e : ByteString × BencodeValue) :
    flagged (·.minInterval) responseHasMinInterval (respFields ret e) =
      onValue "min interval" asInt (fun value _ => (value.toUInt64.toUInt32, true)) e
        (flagged (·.minInterval) responseHasMinInterval ret) := by
  let g := flagged (·.minInterval) responseHasMinInterval
  change g (respFields ret e) = _
  simp only [respFields]
  rw [onValue_frame (g := g), onValue_frame (g := g), onValue_frame (g := g),
    onValue_map (g := g), onValue_frame (g := g), onValue_frame (g := g),
    onValue_frame (g := g)]
  all_goals simp [g, flagged, hasFlag_or, hasFlag_response]

theorem trackerId_respFields (ret : TrackerAnnounceResp) (e : ByteString × BencodeValue) :
    flagged (·.trackerId) responseHasTrackerId (respFields ret e) =
      onValue "tracker id" asString (fun value _ => (value.bytes, true)) e
        (flagged (·.trackerId) responseHasTrackerId ret) := by
  let g := flagged (·.trackerId) responseHasTrackerId
  change g (respFields ret e) = _
  simp only [respFields]
  rw [onValue_frame (g := g), onValue_frame (g := g), onValue_map (g := g),
    onValue_frame (g := g), onValue_frame (g := g), onValue_frame (g := g),
    onValue_frame (g := g)]
  all_goals simp [g, flagged, hasFlag_or, hasFlag_response]

theorem complete_respFields (ret : TrackerAnnounceResp) (e : ByteString × BencodeValue) :
    (respFields ret e).complete =
      onValue "complete" asInt (fun value _ => value.toUInt64.toUInt32) e ret.complete := by
  let g := TrackerAnnounceResp.complete
  change g (respFields ret e) = _
  simp only [respFields]
  rw [onValue_frame (g := g), onValue_map (g := g), onValue_frame (g := g),
    onValue_frame (g := g), onValue_frame (g := g), onValue_frame (g := g),
    onValue_frame (g := g)]
  all_goals simp [g]

theorem incomplete_respFields (ret : TrackerAnnounceResp) (e : ByteString × BencodeValue) :
    (respFields ret e).incomplete =
      onValue "incomplete" asInt (fun value _ => value.toUInt64.toUInt32) e ret.incomplete := by
  let g := TrackerAnnounceResp.incomplete
  change g (respFields ret e) = _
  simp only [respFields]
  rw [onValue_map (g := g), onValue_frame (g := g), onValue_frame (g := g),
    onValue_frame (g := g), onValue_frame (g := g), onValue_frame (g := g),
    onValue_frame (g := g)]
  all_goals simp [g]

/-! ### The loop -/

/-- Behind its tests, a round of the loop changes the peers alone. -/
theorem respEntry_eq_ok {ret ret' : TrackerAnnounceResp} {e : ByteString × BencodeValue}
    (h : respEntry ret e = .ok ret') : ∃ peers, ret' = { respFields ret e with peers } := by
  rw [respEntry] at h
  split at h
  · split at h
    · split at h
      · cases h
      · exact ⟨_, (Except.ok.inj h).symm⟩
    · exact ⟨_, (Except.ok.inj h).symm⟩
  · exact ⟨_, (Except.ok.inj h).symm⟩

/-- What the loop makes of a part of the response that one of the tests sets. -/
theorem run_respEntry {α τ : Type} {g : TrackerAnnounceResp → τ} {key : String}
    {cast : BencodeValue → Option α} {f : α → τ → τ}
    (hpeers : ∀ ret peers, g { ret with peers } = g ret)
    (hg : ∀ ret e, g (respFields ret e) = onValue key cast f e (g ret)) {es : DictMap}
    {ret ret' : TrackerAnnounceResp} (h : run respEntry ret es = .ok ret') :
    g ret' = ((valuesOf key es).filterMap cast).foldl (fun a value => f value a) (g ret) := by
  rw [← foldl_onValue]
  induction es generalizing ret with
  | nil =>
      cases h
      rfl
  | cons e es ih =>
      obtain ⟨t, ht, hrest⟩ := (run_cons_eq_ok respEntry).mp h
      obtain ⟨peers, rfl⟩ := respEntry_eq_ok ht
      rw [ih hrest, hpeers, hg, List.foldl_cons]

theorem peers_respFields (ret : TrackerAnnounceResp) (e : ByteString × BencodeValue) :
    (respFields ret e).peers = ret.peers := by
  let g := TrackerAnnounceResp.peers
  change g (respFields ret e) = _
  simp only [respFields]
  rw [onValue_frame (g := g), onValue_frame (g := g), onValue_frame (g := g),
    onValue_frame (g := g), onValue_frame (g := g), onValue_frame (g := g), onValue_frame (g := g)]
  all_goals simp [g]

/-- The loop ends when every string of peers is in order, and collects the peers. -/
theorem run_respEntry_peers {es : DictMap}
    (h : ∀ s ∈ (valuesOf "peers" es).filterMap asString, 6 ∣ s.bytes.length)
    (ret : TrackerAnnounceResp) :
    ∃ ret', run respEntry ret es = .ok ret' ∧
      ret'.peers = ret.peers ++
        ((valuesOf "peers" es).filterMap asString).flatMap
          fun s => (chunks 6 s.bytes).map peerAt := by
  induction es generalizing ret with
  | nil => exact ⟨ret, rfl, (List.append_nil _).symm⟩
  | cons e es ih =>
      by_cases hkey : e.1.bytes = bytesOf "peers"
      · rw [valuesOf_cons_eq hkey] at h ⊢
        cases hcast : e.2.asString with
        | none =>
            rw [List.filterMap_cons_none hcast] at h ⊢
            have hstep : respEntry ret e = .ok (respFields ret e) := by
              simp only [respEntry, if_pos hkey, hcast]
            obtain ⟨ret', hrun, hret'⟩ := ih h (respFields ret e)
            rw [peers_respFields] at hret'
            exact ⟨ret', (run_cons_of_ok respEntry hstep es).trans hrun, hret'⟩
        | some s =>
            rw [List.filterMap_cons_some hcast] at h ⊢
            have hstep : respEntry ret e = .ok { respFields ret e with
                peers := ret.peers ++ (chunks 6 s.bytes).map peerAt } := by
              simp only [respEntry, if_pos hkey, hcast, parsePeerlistString,
                if_pos (h s List.mem_cons_self), peers_respFields]
            obtain ⟨ret', hrun, hret'⟩ := ih (fun s' hs' => h s' (List.mem_cons_of_mem s hs')) _
            refine ⟨ret', (run_cons_of_ok respEntry hstep es).trans hrun, ?_⟩
            rw [hret', List.flatMap_cons, List.append_assoc]
      · rw [valuesOf_cons_ne hkey] at h ⊢
        have hstep : respEntry ret e = .ok (respFields ret e) := by
          simp only [respEntry, if_neg hkey]
        obtain ⟨ret', hrun, hret'⟩ := ih h (respFields ret e)
        rw [peers_respFields] at hret'
        exact ⟨ret', (run_cons_of_ok respEntry hstep es).trans hrun, hret'⟩

theorem map_peerAt_peersString (c : RespContent) :
    (chunks 6 c.peersString.bytes).map peerAt =
      c.peers.map fun peer => ⟨afInet, wordBytes peer.1, portBytes peer.2⟩ := by
  have hchunks : ∀ peers : List (UInt32 × UInt16),
      chunks 6 (peers.flatMap peerBytes) = peers.map peerBytes := by
    intro peers
    induction peers with
    | nil => rfl
    | cons peer peers ih =>
        rw [List.flatMap_cons, chunks_append (by decide) _ _ (by simp), ih,
          chunks_of_length_eq (by decide) (length_peerBytes peer), List.map_cons,
          List.singleton_append]
  rw [RespContent.peersString, hchunks, List.map_map]
  rfl

theorem toUInt32_intOf (n : UInt32) : (Int64.ofNat n.toNat).toUInt64.toUInt32 = n := by
  have hword : (Int64.ofNat n.toNat).toUInt64 = UInt64.ofNat n.toNat := rfl
  rw [hword, UInt64.toUInt32_ofNat', UInt32.ofNat_toNat]

/-- What the loop makes of an optional entry. -/
theorem part_run {α τ : Type} {part : TrackerAnnounceResp → τ} {key : String}
    {cast : BencodeValue → Option α} {conv : α → τ}
    (hpart : ∀ ret peers, part { ret with peers } = part ret)
    (htest : ∀ ret e, part (respFields ret e) =
      onValue key cast (fun value _ => conv value) e (part ret))
    {es : DictMap} {o : Option α} (hsaid : (valuesOf key es).filterMap cast = o.toList)
    {ret : TrackerAnnounceResp} (h : run respEntry newTrackerAnnounceResp es = .ok ret) :
    part ret = o.elim (part newTrackerAnnounceResp) conv := by
  have hrun := run_respEntry hpart htest h
  rw [hsaid] at hrun
  cases o with
  | none => exact hrun
  | some value => exact hrun

/-- With a flag, which tells whether the entry is there. -/
theorem flagged_run {α τ : Type} {part : TrackerAnnounceResp → τ} {flag : UInt8} {key : String}
    {cast : BencodeValue → Option α} {conv : α → τ}
    (hpart : ∀ ret peers, part { ret with peers } = part ret)
    (htest : ∀ ret e, flagged part flag (respFields ret e) =
      onValue key cast (fun value _ => (conv value, true)) e (flagged part flag ret))
    {es : DictMap} {o : Option α} (hsaid : (valuesOf key es).filterMap cast = o.toList)
    {ret : TrackerAnnounceResp} (h : run respEntry newTrackerAnnounceResp es = .ok ret) :
    part ret = o.elim (part newTrackerAnnounceResp) conv ∧ hasFlag ret.has flag = o.isSome := by
  have hrun := part_run (fun ret peers => by rw [flagged, hpart, flagged]) htest hsaid h
  have hnone : hasFlag newTrackerAnnounceResp.has flag = false := by
    simp [hasFlag, newTrackerAnnounceResp]
  rw [flagged, flagged, hnone] at hrun
  cases o with
  | none => exact Prod.mk.inj hrun
  | some value => exact Prod.mk.inj hrun

theorem filterMap_asString (o : Option ByteString) :
    (o.toList.map BencodeValue.bencodeString).filterMap asString = o.toList := by
  cases o <;> rfl

theorem filterMap_asInt (o : Option UInt32) :
    (o.toList.map intOf).filterMap asInt = (o.map fun n => Int64.ofNat n.toNat).toList := by
  cases o <;> rfl

theorem elim_intOf (o : Option UInt32) :
    (o.map fun n => Int64.ofNat n.toNat).elim 0 (fun value => value.toUInt64.toUInt32) =
      o.getD 0 := by
  cases o with
  | none => rfl
  | some n => exact toUInt32_intOf n

/-- What the loop leaves behind tells what the dictionary says. -/
theorem tells_run {c : RespContent} {es : DictMap} (hsaid : Says es c) {ret : TrackerAnnounceResp}
    (h : run respEntry newTrackerAnnounceResp es = .ok ret)
    (hpeers : ret.peers = c.peers.map fun peer => ⟨afInet, wordBytes peer.1, portBytes peer.2⟩) :
    ret.Tells c := by
  have hstring : ∀ {vs : List BencodeValue} {o : Option ByteString},
      vs = o.toList.map .bencodeString → vs.filterMap asString = o.toList :=
    fun h => h ▸ filterMap_asString _
  have hint : ∀ {vs : List BencodeValue} {o : Option UInt32}, vs = o.toList.map intOf →
      vs.filterMap asInt = (o.map fun n => Int64.ofNat n.toNat).toList :=
    fun h => h ▸ filterMap_asInt _
  obtain ⟨hfailure, hfailure'⟩ :=
    flagged_run (fun _ _ => rfl) failureReason_respFields (hstring hsaid.failureReason) h
  obtain ⟨hwarning, hwarning'⟩ :=
    flagged_run (fun _ _ => rfl) warningMessage_respFields (hstring hsaid.warningMessage) h
  obtain ⟨htracker, htracker'⟩ :=
    flagged_run (fun _ _ => rfl) trackerId_respFields (hstring hsaid.trackerId) h
  obtain ⟨hmin, hmin'⟩ :=
    flagged_run (fun _ _ => rfl) minInterval_respFields (hint hsaid.minInterval) h
  have hinterval := part_run (fun _ _ => rfl) interval_respFields (hint hsaid.interval) h
  have hcomplete := part_run (fun _ _ => rfl) complete_respFields (hint hsaid.complete) h
  have hincomplete := part_run (fun _ _ => rfl) incomplete_respFields (hint hsaid.incomplete) h
  exact {
    failureReason := hfailure
    hasFailureReason := hfailure'
    warningMessage := hwarning
    hasWarningMessage := hwarning'
    trackerId := htracker
    hasTrackerId := htracker'
    interval := hinterval.trans (elim_intOf _)
    minInterval := hmin.trans (elim_intOf _)
    hasMinInterval := hmin'.trans Option.isSome_map
    complete := hcomplete.trans (elim_intOf _)
    incomplete := hincomplete.trans (elim_intOf _)
    peers := hpeers }

theorem trackerRespParse_says (c : RespContent) (es : DictMap)
    (hes : (BencodeValue.bencodeDict es).WellFormed)
    (hkeys : (BencodeValue.bencodeDict es).KeysNulFree) (hsaid : Says es c) :
    ∃ encoded ret rounds, (BencodeValue.bencodeDict es).encode = .ok encoded ∧ ret.Tells c ∧
      ∀ fuel ≥ rounds, trackerRespParse fuel encoded = .ok ret := by
  obtain ⟨encoded, rounds, hencode, hparse⟩ := parseMem_encode hes hkeys [0]
  have hstrings : (valuesOf "peers" es).filterMap asString = [c.peersString] := by
    rw [hsaid.peers]
    rfl
  have hwhole : ∀ s ∈ (valuesOf "peers" es).filterMap asString, 6 ∣ s.bytes.length := by
    rw [hstrings]
    simp only [List.mem_singleton, forall_eq]
    exact ⟨c.peers.length, length_flatMap_peerBytes c.peers⟩
  obtain ⟨ret, hrun, hpeers⟩ := run_respEntry_peers hwhole newTrackerAnnounceResp
  rw [hstrings, List.flatMap_singleton, map_peerAt_peersString] at hpeers
  refine ⟨encoded, ret, rounds, hencode, tells_run hsaid hrun hpeers, fun fuel hfuel => ?_⟩
  simp only [trackerRespParse, hparse fuel hfuel, asDict, hrun]
  rfl

/-- **A response is read as it was written.** Whatever else there is in the
dictionary that a tracker encodes, the program finds each optional entry, with
its flag, and the peers in their order, addresses and ports in network byte
order. -/
theorem trackerRespParse_encode (c : RespContent) (others es : DictMap)
    (hperm : es.Perm (c.entries ++ others))
    (hothers : ∀ e ∈ others, ∀ key ∈ respKeys, e.1.bytes ≠ bytesOf key)
    (hes : (BencodeValue.bencodeDict es).WellFormed)
    (hkeys : (BencodeValue.bencodeDict es).KeysNulFree) :
    ∃ encoded ret rounds, (BencodeValue.bencodeDict es).encode = .ok encoded ∧ ret.Tells c ∧
      ∀ fuel ≥ rounds, trackerRespParse fuel encoded = .ok ret :=
  trackerRespParse_says c es hes hkeys (says_of_perm hperm hothers)

/-- An interval and a peer at `10.0.0.101`. -/
def onePeer : RespContent where
  failureReason := none
  warningMessage := none
  trackerId := none
  interval := some 1800
  minInterval := none
  complete := none
  incomplete := none
  peers := [(0x0a000065, 6881)]
  peers_lt := by decide

def retryIn : DictMap := [(⟨bytesOf "retry in", by decide⟩, .bencodeInt (-1))]

theorem trackerRespParse_encode_onePeer :
    ∃ encoded ret rounds,
      (BencodeValue.bencodeDict (onePeer.entries ++ retryIn)).encode = .ok encoded ∧
        ret.Tells onePeer ∧ ∀ fuel ≥ rounds, trackerRespParse fuel encoded = .ok ret :=
  trackerRespParse_encode onePeer retryIn (onePeer.entries ++ retryIn) (.refl _)
    (by decide)
    (.bencodeDict _ (by simp only [DictSorted, MultimapSorted, KeyLt, ByteString.Lt]; decide)
      (List.forall_mem_cons.mpr ⟨.bencodeInt _, List.forall_mem_cons.mpr
        ⟨.bencodeString _, List.forall_mem_cons.mpr ⟨.bencodeInt _, by simp⟩⟩⟩))
    (.bencodeDict _ (by decide) (List.forall_mem_cons.mpr ⟨.bencodeInt _,
      List.forall_mem_cons.mpr ⟨.bencodeString _,
        List.forall_mem_cons.mpr ⟨.bencodeInt _, by simp⟩⟩⟩))

end Daobell
