import Daobell.Bencode.Canonical
import Daobell.Bencode.RoundTrip
import Daobell.Torrent.InfoSpec

/-!
The info hash and the metainfo file. The hash is taken over the encoding of the
parsed `info` value, so it is the hash of the bytes in the file for the values
that are written as the encoder writes them, and for no others unless SHA-1
collides.
-/

namespace Daobell

open Lib BencodeValue BencodeText BencodeParser

/-- The entries of a dictionary text under one key are those of its value. -/
theorem filter_value_eq {es : List (StringText × BencodeText)} {name : Bytes} {k : StringText}
    {t : BencodeText} (h : es.filter (fun e => e.1.content.bytes = name) = [(k, t)]) :
    ((entries es).foldl insertToDict []).filter (fun e => e.1.bytes = name) =
      [(k.content, t.value)] := by
  have hentries : (entries es).filter (fun e => e.1.bytes = name) = [(k.content, t.value)] := by
    rw [entries_eq_map, List.filter_map]
    exact congrArg (List.map _) h
  have hperm := (foldl_multimapInsert_perm ByteString.Lt [] (entries es)).filter
    (fun e => e.1.bytes = name)
  rw [List.nil_append, hentries] at hperm
  exact List.perm_singleton.mp hperm

/-- **The info hash.** For every metainfo file whose top level dictionary has
one `info` entry, with no NUL byte in a key of its value and an encoding whose
length fits an `int`, the hash stored is the SHA-1 of the encoding of that
value; and the encoding is the bytes in the file exactly when they are written
canonically. -/
theorem infoHash_of_metainfo (old : Int64) (es : List (StringText × BencodeText)) (k : StringText)
    (info : BencodeText)
    (hone : es.filter (fun e => e.1.content.bytes = bytesOf "info") = [(k, info)])
    (hkeys : info.value.KeysNulFree) (hlen : info.value.crawl.length < 2 ^ 31) (r : Bytes) :
    ∃ metainfo rounds, (∀ fuel ≥ rounds,
      parseIfs old fuel (.ofBytes ((BencodeText.dict es).spell ++ r)) =
        .ok (metainfo, .ofBytes r)) ∧
      ∀ env destdir torrent, torrentInit env metainfo destdir = .ok torrent →
        ∃ encoded, info.value.encode = .ok encoded ∧ torrent.infoHash = sha1 encoded ∧
          (encoded = info.spell ↔ info.Canonical) := by
  refine ⟨(BencodeText.dict es).value, (BencodeText.dict es).rounds,
    fun fuel hfuel => parseIfs_spell old _ r fuel hfuel, ?_⟩
  intro env destdir torrent hinit
  rw [value] at hinit
  obtain ⟨encoded, hencoded, hhash⟩ := torrentInit_infoHash (filter_value_eq hone) hinit
  have hcrawl : encoded = info.value.crawl := by
    rw [encode_of_noNull (noNull_value info), Except.ok.injEq] at hencoded
    exact hencoded.symm
  refine ⟨encoded, hencoded, ?_, ?_⟩
  · rw [hhash, sha1Compute_eq (hcrawl ▸ hlen)]
  · rw [hcrawl]
    exact crawl_value_eq_spell_iff info hkeys

def textKey (s : String) (h : (bytesOf s).length < 2 ^ 63) : StringText := .ofString ⟨bytesOf s, h⟩

/-- `d1:ai2e1:bi1ee`. -/
def sortedInfo : BencodeText :=
  .dict [(textKey "a" (by decide), .int (.ofInt64 2)), (textKey "b" (by decide), .int (.ofInt64 1))]

/-- `d1:bi1e1:ai2ee`, the same entries the other way round. -/
def unsortedInfo : BencodeText :=
  .dict [(textKey "b" (by decide), .int (.ofInt64 1)), (textKey "a" (by decide), .int (.ofInt64 2))]

/-- A metainfo file with nothing but this `info` entry. -/
def metainfoOf (info : BencodeText) : List (StringText × BencodeText) :=
  [(.ofString infoKey, info)]

/-- The file `d4:infod1:bi1e1:ai2eee` is in the grammar and has one `info`
entry, and its info hash is not the hash of the bytes in it. -/
theorem infoHash_unsortedInfo :
    ∃ metainfo rounds torrent,
      parseIfs 0 rounds (.ofBytes (BencodeText.dict (metainfoOf unsortedInfo)).spell) =
        .ok (metainfo, .ofBytes []) ∧
      torrentInit quietEnvironment metainfo [] = .ok torrent ∧
      (BencodeText.dict (metainfoOf unsortedInfo)).spell = bytesOf "d4:infod1:bi1e1:ai2eee" ∧
      unsortedInfo.spell = bytesOf "d1:bi1e1:ai2ee" ∧
      torrent.infoHash ≠ sha1 unsortedInfo.spell := by
  have hparse := parseIfs_spell 0 (BencodeText.dict (metainfoOf unsortedInfo)) [] _ le_rfl
  rw [List.append_nil] at hparse
  obtain ⟨torrent, hinit, hhash⟩ : ∃ torrent, torrentInit quietEnvironment
      (BencodeText.dict (metainfoOf unsortedInfo)).value [] = .ok torrent ∧
      torrent.infoHash ≠ sha1 unsortedInfo.spell := by
    decide +kernel
  exact ⟨_, _, torrent, hparse, hinit, by decide, by decide, hhash⟩

theorem infoHash_of_metainfo_sortedInfo :
    ∃ metainfo rounds, (∀ fuel ≥ rounds,
      parseIfs 0 fuel (.ofBytes ((BencodeText.dict (metainfoOf sortedInfo)).spell ++ [])) =
        .ok (metainfo, .ofBytes [])) ∧
      ∀ env destdir torrent, torrentInit env metainfo destdir = .ok torrent →
        ∃ encoded, sortedInfo.value.encode = .ok encoded ∧ torrent.infoHash = sha1 encoded ∧
          (encoded = sortedInfo.spell ↔ sortedInfo.Canonical) := by
  refine infoHash_of_metainfo 0 (metainfoOf sortedInfo) _ sortedInfo rfl ?_ (by decide +kernel) []
  exact .bencodeDict [(⟨bytesOf "a", by decide⟩, .bencodeInt (Int64.ofInt 2)),
    (⟨bytesOf "b", by decide⟩, .bencodeInt (Int64.ofInt 1))] (by decide)
    (List.forall_mem_cons.mpr ⟨.bencodeInt _, List.forall_mem_cons.mpr ⟨.bencodeInt _, by simp⟩⟩)

end Daobell
