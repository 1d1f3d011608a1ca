import Daobell.Tracker.ResponseRoundTrip

/-!
Responses that the program cannot use. Its caller is prepared for an empty
pointer, which `tracker_resp_parse` never returns: on a response that is no
dictionary, or with a string of peers of the wrong length, an assertion fails.
-/

namespace Daobell

open Lib BencodeValue BencodeParser

/-- A call of `tracker_resp_parse` comes back. -/
def ReturnsResponse (respStr : Bytes) : Prop :=
  ∃ ret rounds, ∀ fuel ≥ rounds, trackerRespParse fuel respStr = .ok ret

/-- A dictionary in which every string under `peers` consists of peers of six bytes. -/
def HoldsPeers (t : BencodeText) : Prop :=
  ∃ es, t = .dict es ∧ ∀ e ∈ es, e.1.content.bytes = bytesOf "peers" →
    ∀ s, e.2 = .string s → 6 ∣ s.content.bytes.length

theorem trackerRespParse_spell (t : BencodeText) {fuel : ℕ} (hfuel : t.rounds ≤ fuel) :
    trackerRespParse fuel t.spell =
      t.value.asDict.elim (.error (.crash .assertFailed))
        fun dict => (run respEntry newTrackerAnnounceResp dict).mapError .crash := by
  have hparse := parseMem_spell t (List.drop_zero (l := t.spell ++ [0])) fuel hfuel
  simp only [trackerRespParse, hparse]
  cases t.value.asDict <;> rfl

/-- A loop that ends has found every string of peers in order. -/
theorem peers_of_run_respEntry {es : DictMap} {ret ret' : TrackerAnnounceResp}
    (h : run respEntry ret es = .ok ret') :
    ∀ s ∈ (valuesOf "peers" es).filterMap asString, 6 ∣ s.bytes.length := by
  induction es generalizing ret with
  | nil => simp [valuesOf]
  | cons e es ih =>
      obtain ⟨t, ht, hrest⟩ := (run_cons_eq_ok respEntry).mp h
      by_cases hkey : e.1.bytes = bytesOf "peers"
      swap
      · rw [valuesOf_cons_ne hkey]
        exact ih hrest
      rw [valuesOf_cons_eq hkey]
      cases hcast : e.2.asString with
      | none =>
          rw [List.filterMap_cons_none hcast]
          exact ih hrest
      | some s =>
          rw [List.filterMap_cons_some hcast]
          refine List.forall_mem_cons.mpr ⟨?_, ih hrest⟩
          simp only [respEntry, if_pos hkey, hcast, parsePeerlistString] at ht
          by_contra hdvd
          rw [if_neg hdvd] at ht
          cases ht

/-- Strings in the value of a dictionary are strings of the text. -/
theorem mem_peers_value_dict {es : List (StringText × BencodeText)} {s : ByteString} :
    s ∈ (valuesOf "peers" ((BencodeText.entries es).foldl insertToDict [])).filterMap asString ↔
      ∃ e ∈ es, e.1.content.bytes = bytesOf "peers" ∧ ∃ text, e.2 = .string text ∧
        text.content = s := by
  have hstring : ∀ t : BencodeText, t.value.asString = some s ↔
      ∃ text, t = .string text ∧ text.content = s := by
    intro t
    cases t <;> simp [BencodeText.value, asString]
  have hperm := valuesOf_perm "peers" (foldl_multimapInsert_perm ByteString.Lt []
    (BencodeText.entries es))
  rw [List.nil_append] at hperm
  change s ∈ (valuesOf "peers" ((BencodeText.entries es).foldl (multimapInsert ByteString.Lt)
    [])).filterMap asString ↔ _
  rw [(hperm.filterMap asString).mem_iff, BencodeText.entries_eq_map]
  simp only [valuesOf, List.mem_filterMap, List.mem_map, List.mem_filter, decide_eq_true_eq]
  constructor
  · rintro ⟨_, ⟨_, ⟨⟨e, he, rfl⟩, hkey⟩, rfl⟩, hcast⟩
    exact ⟨e, he, hkey, (hstring e.2).mp hcast⟩
  · rintro ⟨e, he, hkey, htext⟩
    exact ⟨_, ⟨_, ⟨⟨e, he, rfl⟩, hkey⟩, rfl⟩, (hstring e.2).mpr htext⟩

/-- **Which responses are answered.** On a text of the grammar, whatever its keys
and values, a call comes back if and only if the text is a dictionary in which
every string of peers has a length that six divides. -/
theorem trackerRespParse_returns_iff (t : BencodeText) :
    ReturnsResponse t.spell ↔ HoldsPeers t := by
  constructor
  · rintro ⟨ret, rounds, h⟩
    have hret := h (max rounds t.rounds) (le_max_left _ _)
    rw [trackerRespParse_spell t (le_max_right _ _)] at hret
    cases t with
    | string s => cases hret
    | int n => cases hret
    | list ts => cases hret
    | dict es =>
        refine ⟨es, rfl, fun e he hkey s hs => ?_⟩
        cases hrun : run respEntry newTrackerAnnounceResp
            ((BencodeText.entries es).foldl insertToDict []) with
        | error c =>
            simp only [BencodeText.value, asDict, Option.elim_some, hrun] at hret
            cases hret
        | ok ret' =>
            exact peers_of_run_respEntry hrun _ (mem_peers_value_dict.mpr ⟨e, he, hkey, s, hs, rfl⟩)
  · rintro ⟨es, rfl, hpeers⟩
    have hwhole : ∀ s ∈ (valuesOf "peers"
        ((BencodeText.entries es).foldl insertToDict [])).filterMap asString,
        6 ∣ s.bytes.length := by
      intro s hs
      obtain ⟨e, he, hkey, text, htext, rfl⟩ := mem_peers_value_dict.mp hs
      exact hpeers e he hkey text htext
    obtain ⟨ret, hrun, -⟩ := run_respEntry_peers hwhole newTrackerAnnounceResp
    refine ⟨ret, (BencodeText.dict es).rounds, fun fuel hfuel => ?_⟩
    rw [trackerRespParse_spell _ hfuel]
    simp only [BencodeText.value, asDict, Option.elim_some, hrun]
    rfl

/-- `d5:peers3:abce`. -/
def cutPeers : BencodeText :=
  .dict [(.ofString peersKey, .string (.ofString ⟨bytesOf "abc", by decide⟩))]

/-- Half an address for the peers. -/
theorem cutPeers_asserts :
    cutPeers.spell = bytesOf "d5:peers3:abce" ∧ ¬ ReturnsResponse cutPeers.spell := by
  refine ⟨by decide +kernel, ?_⟩
  rintro ⟨ret, rounds, h⟩
  have hret := h (max rounds cutPeers.rounds) (le_max_left _ _)
  have hdict : cutPeers.value.asDict =
      some [(peersKey, .bencodeString ⟨bytesOf "abc", by decide⟩)] := rfl
  have hcrash : (run respEntry newTrackerAnnounceResp
      [(peersKey, .bencodeString ⟨bytesOf "abc", by decide⟩)]).mapError Stop.crash =
        .error (.crash .assertFailed) := by
    decide +kernel
  rw [trackerRespParse_spell cutPeers (le_max_right _ _), hdict, Option.elim_some, hcrash] at hret
  cases hret

end Daobell
