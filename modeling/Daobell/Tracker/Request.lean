import Daobell.Http.UrlParts
import Daobell.Lib.Query
import Daobell.Tracker.Messages
import Daobell.Utils

/-!
The request to a tracker, `build_http_request` in `tracker_announce.cpp`. It is the
path of the announce URL with a query of its own behind it; a query that the URL
has is not looked at.
-/

namespace Daobell

open Lib

def requestHasKey : UInt8 := (1 : UInt8) <<< 4

def requestHasTrackerId : UInt8 := (1 : UInt8) <<< 5

/-- A `tracker_announce_req` with the members that only `build_http_request` looks at,
two C strings. `info_hash` and `peer_id` are arrays of 20 bytes. -/
structure TrackerRequest extends TrackerAnnounceReq where
  key : Bytes
  trackerid : Bytes

def TorrentEvent.eventStr : TorrentEvent → Bytes
  | .eventStarted => bytesOf "started"
  | .eventCompleted => bytesOf "completed"
  | .eventStopped => bytesOf "stopped"

/-- `build_http_request`; `none` where it returns -1. -/
def buildHttpRequest (url : HttpUrl) : Option TrackerRequest → Option Bytes
  | none => none
  | some req => some (
      bytesOf "GET " ++ url.path ++
      bytesOf "?info_hash=" ++ Utils.percentEncode req.infoHash ++
      bytesOf "&peer_id=" ++ Utils.percentEncode req.peerId ++
      bytesOf "&port=" ++ decimal req.port.toNat ++
      bytesOf "&uploaded=" ++ decimal req.uploaded ++
      bytesOf "&downloaded=" ++ decimal req.downloaded ++
      bytesOf "&left=" ++ decimal req.left ++
      (if hasFlag req.has requestHasCompact then
        bytesOf "&compact=" ++ decimal req.compact.toNat else []) ++
      (if hasFlag req.has requestHasEvent then bytesOf "&event=" ++ req.event.eventStr else []) ++
      (if hasFlag req.has requestHasNumwant then
        bytesOf "&numwant=" ++ decimal req.numwant else []) ++
      (if hasFlag req.has requestHasKey then bytesOf "&key=" ++ cStr req.key else []) ++
      (if hasFlag req.has requestHasTrackerId then
        bytesOf "&trackerid=" ++ cStr req.trackerid else []) ++
      bytesOf " HTTP/1.1\r\nHost: " ++ url.domain ++ bytesOf "\r\n\r\n")

/-! ### What a request says -/

def TrackerRequest.fields (req : TrackerRequest) : List (Bytes × Bytes) :=
  [(bytesOf "info_hash", req.infoHash), (bytesOf "peer_id", req.peerId),
    (bytesOf "port", decimal req.port.toNat), (bytesOf "uploaded", decimal req.uploaded),
    (bytesOf "downloaded", decimal req.downloaded), (bytesOf "left", decimal req.left)] ++
  (if hasFlag req.has requestHasCompact then
    [(bytesOf "compact", decimal req.compact.toNat)] else []) ++
  (if hasFlag req.has requestHasEvent then [(bytesOf "event", req.event.eventStr)] else []) ++
  (if hasFlag req.has requestHasNumwant then [(bytesOf "numwant", decimal req.numwant)] else [])

/-- The target of an HTTP request, between its first two spaces. -/
def requestTarget (request : Bytes) : Bytes :=
  ((request.dropWhile (· ≠ 32)).drop 1).takeWhile (· ≠ 32)

def readTarget (target : Bytes) : Bytes × List (Bytes × Bytes) :=
  (target.takeWhile (· ≠ 63), readQuery ((target.dropWhile (· ≠ 63)).drop 1))

def behindScheme (url : Bytes) : Bytes := (url.dropWhile (· ≠ ':'.toUInt8)).drop 3

/-- What stands between the authority at the beginning of a text and a query or a
fragment. -/
def pathBehind (text : Bytes) : Bytes :=
  (text.dropWhile (noneOf (bytesOf "/#?"))).takeWhile (noneOf (bytesOf "#?"))

def urlPath (url : Bytes) : Bytes := pathBehind (behindScheme url)

def urlQuery (url : Bytes) : Bytes :=
  ((url.takeWhile (· ≠ '#'.toUInt8)).dropWhile (· ≠ '?'.toUInt8)).drop 1

/-- The request for a URL has its path, its parameters and the fields, and nothing else. -/
def AnnouncesAt (url : Bytes) (req : TrackerRequest) : Prop :=
  ∃ request, buildHttpRequest (httpUrlParser url) (some req) = some request ∧
    (readTarget (requestTarget request)).1 = urlPath (cStr url) ∧
    (readTarget (requestTarget request)).2.Perm (readQuery (urlQuery (cStr url)) ++ req.fields)

/-- No query and no fragment begins in front of the first slash behind the scheme. -/
def PlainAuthority (url : Bytes) : Prop :=
  '/'.toUInt8 ∈ behindScheme url →
    ∀ b ∈ (behindScheme url).takeWhile (· ≠ '/'.toUInt8), b ∉ bytesOf "#?"

/-! ### The text of the request -/

theorem unreserved_of_isDigit {b : UInt8} (hb : isDigit b = true) : Utils.unreserved b = true := by
  have hrange : 48 ≤ b.toNat ∧ b.toNat ≤ 57 := by
    simpa [isDigit, UInt8.le_iff_toNat_le] using hb
  have hmem : b.toNat ∈ List.range' 48 10 := List.mem_range'_1.mpr ⟨hrange.1, by omega⟩
  rw [Utils.unreserved_iff]
  exact List.mem_append_left _ (List.mem_append_right _ hmem)

theorem percentEncode_decimal (n : ℕ) :
    percentEncode Utils.unreserved (decimal n) = decimal n :=
  percentEncode_eq_self fun _ hb => unreserved_of_isDigit (isDigit_decimal hb)

theorem percentEncode_eventStr (event : TorrentEvent) :
    percentEncode Utils.unreserved event.eventStr = event.eventStr := by
  cases event <;> decide +kernel

/-- A parameter behind a mark, with its name as it stands in the source. -/
theorem cons_writeParam (mark : UInt8) (text name value : Bytes)
    (htext : text = mark :: (name ++ [equalsSign])) (hname : name.all Utils.unreserved = true) :
    mark :: writeParam Utils.unreserved (name, value) =
      text ++ percentEncode Utils.unreserved value := by
  rw [writeParam, percentEncode_eq_self (List.all_eq_true.mp hname), htext]
  simp

theorem flatMap_writeParam (c : Bool) (text name value : Bytes)
    (htext : text = ampersand :: (name ++ [equalsSign]))
    (hname : name.all Utils.unreserved = true) :
    ((if c then [(name, value)] else []).flatMap fun param =>
        ampersand :: writeParam Utils.unreserved param) =
      if c then text ++ percentEncode Utils.unreserved value else [] := by
  cases c with
  | false => rfl
  | true =>
      rw [if_pos rfl, if_pos rfl, List.flatMap_singleton,
        cons_writeParam ampersand text name value htext hname]

theorem cons_writeQuery_fields (req : TrackerRequest) :
    '?'.toUInt8 :: writeQuery Utils.unreserved req.fields =
      bytesOf "?info_hash=" ++ Utils.percentEncode req.infoHash ++
      bytesOf "&peer_id=" ++ Utils.percentEncode req.peerId ++
      bytesOf "&port=" ++ decimal req.port.toNat ++
      bytesOf "&uploaded=" ++ decimal req.uploaded ++
      bytesOf "&downloaded=" ++ decimal req.downloaded ++
      bytesOf "&left=" ++ decimal req.left ++
      (if hasFlag req.has requestHasCompact then
        bytesOf "&compact=" ++ decimal req.compact.toNat else []) ++
      (if hasFlag req.has requestHasEvent then bytesOf "&event=" ++ req.event.eventStr else []) ++
      (if hasFlag req.has requestHasNumwant then
        bytesOf "&numwant=" ++ decimal req.numwant else []) := by
  rw [TrackerRequest.fields, List.append_assoc, List.append_assoc, List.cons_append,
    writeQuery_cons, ← List.cons_append,
    cons_writeParam '?'.toUInt8 (bytesOf "?info_hash=") (bytesOf "info_hash") _ rfl (by decide)]
  simp only [List.cons_append, List.nil_append, List.flatMap_cons, List.flatMap_append]
  rw [flatMap_writeParam _ (bytesOf "&compact=") (bytesOf "compact") _ rfl (by decide),
    flatMap_writeParam _ (bytesOf "&event=") (bytesOf "event") _ rfl (by decide),
    flatMap_writeParam _ (bytesOf "&numwant=") (bytesOf "numwant") _ rfl (by decide)]
  simp only [← List.cons_append]
  rw [cons_writeParam ampersand (bytesOf "&peer_id=") (bytesOf "peer_id") _ rfl (by decide),
    cons_writeParam ampersand (bytesOf "&port=") (bytesOf "port") _ rfl (by decide),
    cons_writeParam ampersand (bytesOf "&uploaded=") (bytesOf "uploaded") _ rfl (by decide),
    cons_writeParam ampersand (bytesOf "&downloaded=") (bytesOf "downloaded") _ rfl (by decide),
    cons_writeParam ampersand (bytesOf "&left=") (bytesOf "left") _ rfl (by decide)]
  simp only [percentEncode_decimal, percentEncode_eventStr, Utils.percentEncode_eq,
    List.append_assoc]

/-- The request of a tracker that neither `key` nor `trackerid` is sent to. -/
theorem buildHttpRequest_eq (url : HttpUrl) {req : TrackerRequest}
    (hkey : hasFlag req.has requestHasKey = false)
    (htracker : hasFlag req.has requestHasTrackerId = false) :
    buildHttpRequest url (some req) = some (bytesOf "GET " ++ (url.path ++
      ('?'.toUInt8 :: writeQuery Utils.unreserved req.fields ++
        (bytesOf " HTTP/1.1\r\nHost: " ++ url.domain ++ bytesOf "\r\n\r\n")))) := by
  rw [cons_writeQuery_fields, buildHttpRequest, hkey, htracker]
  simp only [Bool.false_eq_true, if_false, List.append_nil, List.append_assoc]

/-! ### What is read of it -/

theorem requestTarget_append {target : Bytes} (h : 32 ∉ target) (rest : Bytes) :
    requestTarget (bytesOf "GET " ++ (target ++ 32 :: rest)) = target := by
  have hget : (bytesOf "GET" ++ 32 :: (target ++ 32 :: rest)).dropWhile (· ≠ 32) =
      32 :: (target ++ 32 :: rest) := dropWhile_append_cons (by decide) _
  have htext : bytesOf "GET " ++ (target ++ 32 :: rest) =
      bytesOf "GET" ++ 32 :: (target ++ 32 :: rest) := rfl
  rw [requestTarget, htext, hget, List.drop_one, List.tail_cons, takeWhile_append_cons h]

theorem readTarget_append {path : Bytes} (h : 63 ∉ path) (query : Bytes) :
    readTarget (path ++ 63 :: query) = (path, readQuery query) := by
  rw [readTarget, takeWhile_append_cons h, dropWhile_append_cons h, List.drop_one, List.tail_cons]

/-- What a request says: its path and its fields, whatever the query of the URL is. -/
theorem readTarget_buildHttpRequest (u : UrlParts) {url : HttpUrl} (hpath : url.path = u.path)
    {req : TrackerRequest} (hkey : hasFlag req.has requestHasKey = false)
    (htracker : hasFlag req.has requestHasTrackerId = false) :
    ∃ request, buildHttpRequest url (some req) = some request ∧
      readTarget (requestTarget request) = (u.path, req.fields) := by
  have hspace : 32 ∉ u.path := fun hmem => u.path_free 32 hmem (by decide)
  have hquestion : 63 ∉ u.path := fun hmem => u.path_free 63 hmem (by decide)
  have hquery : (32 : UInt8) ∉ (63 :: writeQuery Utils.unreserved req.fields : Bytes) :=
    List.not_mem_cons_of_ne_of_not_mem (by decide)
      (notMem_writeQuery (by decide) (by decide) (by decide) (by decide) rfl req.fields)
  have htarget : 32 ∉ u.path ++ 63 :: writeQuery Utils.unreserved req.fields := by
    rw [List.mem_append, not_or]
    exact ⟨hspace, hquery⟩
  refine ⟨_, buildHttpRequest_eq url hkey htracker, ?_⟩
  have hend : bytesOf " HTTP/1.1\r\nHost: " ++ url.domain ++ bytesOf "\r\n\r\n" =
      32 :: (bytesOf "HTTP/1.1\r\nHost: " ++ url.domain ++ bytesOf "\r\n\r\n") := rfl
  rw [hpath, hend, ← List.append_assoc u.path]
  refine (congrArg readTarget (requestTarget_append htarget _)).trans ?_
  rw [readTarget_append hquestion,
    readQuery_writeQuery (by decide) (by decide) (by decide)]

/-! ### The path of the URL -/

theorem noneOf_slash {b : UInt8} (hslash : b ≠ '/'.toUInt8) (hmark : b ∉ bytesOf "#?") :
    noneOf (bytesOf "/#?") b = true := by
  refine noneOf_eq_true.mpr fun hmem => ?_
  rcases List.mem_cons.mp hmem with h | hmem
  · exact hslash h
  · exact hmark hmem

/-- No path comes behind an authority in which a query or a fragment begins. -/
theorem pathBehind_of_mark {authority rest : Bytes} (hslash : '/'.toUInt8 ∉ authority)
    (hmark : ∃ b ∈ authority, b ∈ bytesOf "#?") : pathBehind (authority ++ rest) = [] := by
  induction authority with
  | nil => simp at hmark
  | cons c authority ih =>
      rw [List.mem_cons, not_or] at hslash
      rw [pathBehind, List.cons_append]
      by_cases hc : c ∈ bytesOf "#?"
      · have hdrop : noneOf (bytesOf "/#?") c = false :=
          noneOf_eq_false.mpr (List.mem_cons_of_mem _ hc)
        have htake : noneOf (bytesOf "#?") c = false := noneOf_eq_false.mpr hc
        rw [List.dropWhile_cons_of_neg (by rw [hdrop]; decide),
          List.takeWhile_cons_of_neg (by rw [htake]; decide)]
      · rw [List.dropWhile_cons_of_pos (noneOf_slash (Ne.symm hslash.1) hc)]
        obtain ⟨b, hb, hmark⟩ := hmark
        refine ih hslash.2 ⟨b, ?_, hmark⟩
        exact (List.mem_cons.mp hb).resolve_left fun h => hc (h ▸ hmark)

/-- Behind any other authority the path is what stands there. -/
theorem pathBehind_of_plain {authority rest : Bytes} (hslash : '/'.toUInt8 ∉ authority)
    (hplain : ∀ b ∈ authority, b ∉ bytesOf "#?") :
    pathBehind (authority ++ rest) = pathBehind rest := by
  have hall : ∀ b ∈ authority, noneOf (bytesOf "/#?") b = true :=
    fun b hb => noneOf_slash (fun h => hslash (h ▸ hb)) (hplain b hb)
  rw [pathBehind, List.dropWhile_append_of_pos hall, pathBehind]

namespace UrlParts

variable (u : UrlParts)

def authority : Bytes := u.host ++ optPart ':'.toUInt8 u.port

theorem behindScheme_text : behindScheme u.text = u.authority ++ (u.path ++ u.tail) := by
  rw [authority, List.append_assoc, text]
  rcases u.scheme_eq with h | h <;> rw [h] <;> rfl

theorem slash_notMem_authority : '/'.toUInt8 ∉ u.authority := by
  rw [authority, List.mem_append, not_or]
  refine ⟨fun hmem => u.host_free _ hmem (by decide), fun hmem => ?_⟩
  cases hport : u.port with
  | none =>
      rw [hport] at hmem
      cases hmem
  | some p =>
      rw [hport] at hmem
      rcases List.mem_cons.mp hmem with h | hmem
      · exact absurd h (by decide)
      · exact u.port_free '/'.toUInt8 (by rwa [hport]) (by decide)

theorem pathBehind_path : pathBehind (u.path ++ u.tail) = u.path := by
  rcases u.path_head with hhead | ⟨hnil, hquery, hfragment⟩
  · have hpath : ∀ b ∈ u.path, noneOf (bytesOf "#?") b = true := by
      intro b hb
      exact noneOf_eq_true.mpr fun hmem => u.path_free b hb (List.mem_cons_of_mem _ hmem)
    have hdrop : (u.path ++ u.tail).dropWhile (noneOf (bytesOf "/#?")) = u.path ++ u.tail := by
      obtain ⟨p, hp⟩ := List.head?_eq_some_iff.mp hhead
      rw [hp]
      rfl
    have htail : u.tail.takeWhile (noneOf (bytesOf "#?")) = [] := by
      cases htext : u.tail with
      | nil => rfl
      | cons b rest =>
          refine List.takeWhile_cons_of_neg ?_
          rcases u.head?_tail (b := b) (by rw [htext]; rfl) with rfl | rfl <;> decide
    rw [pathBehind, hdrop, List.takeWhile_append_of_pos hpath, htail, List.append_nil]
  · rw [hnil, tail, hquery, hfragment]
    rfl

theorem takeWhile_slash :
    (u.authority ++ (u.path ++ u.tail)).takeWhile (· ≠ '/'.toUInt8) = u.authority := by
  rcases u.path_head with hhead | ⟨hnil, hquery, hfragment⟩
  · obtain ⟨p, hp⟩ := List.head?_eq_some_iff.mp hhead
    rw [hp]
    exact takeWhile_append_cons u.slash_notMem_authority _
  · rw [hnil, tail, hquery, hfragment]
    refine (congrArg _ (List.append_nil u.authority)).trans ?_
    exact List.takeWhile_eq_self_iff.mpr fun b hb =>
      decide_eq_true fun h => u.slash_notMem_authority (h ▸ hb)

/-- The path that is found is the path of the URL just when the authority is plain. -/
theorem path_eq_iff : u.path = urlPath u.text ↔ PlainAuthority u.text := by
  have hslash := u.slash_notMem_authority
  rw [urlPath, PlainAuthority, u.behindScheme_text, u.takeWhile_slash]
  by_cases hplain : ∀ b ∈ u.authority, b ∉ bytesOf "#?"
  · rw [pathBehind_of_plain hslash hplain, u.pathBehind_path]
    exact ⟨fun _ _ => hplain, fun _ => rfl⟩
  · rw [pathBehind_of_mark hslash (by simpa using hplain)]
    constructor
    · intro hnil hmem
      -- without a path nothing stands behind the authority
      rcases u.path_head with hhead | ⟨-, hquery, hfragment⟩
      · rw [hnil] at hhead
        cases hhead
      · rw [hnil, tail, hquery, hfragment] at hmem
        exact absurd ((List.append_nil u.authority) ▸ hmem) hslash
    · intro h
      rcases u.path_head with hhead | ⟨hnil, -, -⟩
      · have hmem : '/'.toUInt8 ∈ u.path := List.mem_of_head? hhead
        exact absurd (h (List.mem_append_right _ (List.mem_append_left _ hmem))) hplain
      · exact hnil

end UrlParts

/-- **What a request says of its URL.** The path, the parameters of the URL and the
fields are in it, each once, if and only if the URL has no parameters of its own, and
its authority is plain: the query of the URL is dropped. -/
theorem announcesAt_iff (url : Bytes) (hvalid : (httpUrlParser url).valid = true)
    (req : TrackerRequest) (hkey : hasFlag req.has requestHasKey = false)
    (htracker : hasFlag req.has requestHasTrackerId = false) :
    AnnouncesAt url req ↔ readQuery (urlQuery (cStr url)) = [] ∧ PlainAuthority (cStr url) := by
  obtain ⟨u, hu⟩ := exists_parts_of_valid hvalid
  have hpath : (httpUrlParser url).path = u.path := by rw [u.httpUrlParser_text hu]
  obtain ⟨request, hrequest, hread⟩ := readTarget_buildHttpRequest u hpath hkey htracker
  rw [← hu, ← u.path_eq_iff]
  constructor
  · rintro ⟨request', hrequest', hpath', hperm⟩
    rw [hrequest] at hrequest'
    cases hrequest'
    rw [hread, ← hu] at hpath' hperm
    have hlength : req.fields.length = _ := hperm.length_eq
    rw [List.length_append] at hlength
    exact ⟨List.eq_nil_of_length_eq_zero (by omega), hpath'⟩
  · rintro ⟨hquery, hpath'⟩
    refine ⟨request, hrequest, ?_, ?_⟩
    · rw [hread, ← hu]
      exact hpath'
    · rw [hread, ← hu, hquery]
      exact List.Perm.refl _

/-- A request with the flags that `create_tracker_request` sets. -/
def compactRequest : TrackerRequest where
  has := requestHasCompact ||| requestHasNumwant
  infoHash := List.replicate 20 38
  peerId := List.replicate 20 61
  port := 6881
  uploaded := 0
  downloaded := 0
  left := 0
  compact := true
  event := .eventStarted
  numwant := 50
  key := []
  trackerid := []

theorem announcesAt_iff_compactRequest :
    AnnouncesAt (bytesOf "http://t:80/a") compactRequest ↔
      readQuery (urlQuery (cStr (bytesOf "http://t:80/a"))) = [] ∧
        PlainAuthority (cStr (bytesOf "http://t:80/a")) :=
  announcesAt_iff (bytesOf "http://t:80/a") (by decide +kernel) compactRequest (by decide)
    (by decide)

/-- A tracker that tells its users by a parameter. -/
theorem not_announcesAt_passkey :
    (httpUrlParser (bytesOf "http://t/a?passkey=1")).valid = true ∧
      ¬ AnnouncesAt (bytesOf "http://t/a?passkey=1") compactRequest := by
  refine ⟨by decide +kernel, ?_⟩
  rintro ⟨request, hrequest, -, hperm⟩
  cases hrequest
  exact absurd hperm.length_eq (by decide +kernel)

end Daobell
