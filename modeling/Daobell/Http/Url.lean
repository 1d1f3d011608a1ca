import Daobell.Http.Downloader
import Daobell.Lib.Regex

/-!
The parser of URLs, `http_url_parser.cpp`. A URL is matched as a whole against one
regular expression, and the groups of the match are its parts.
-/

namespace Daobell

open Lib

structure HttpUrl extends HttpUrlParser where
  url : Bytes
  scheme : Bytes
  port : Bytes
  query : Bytes
  fragment : Bytes
  deriving DecidableEq

def noneOf (marks : Bytes) (b : UInt8) : Bool := !marks.contains b

def urlRegexPath : Regex UInt8 :=
  .seq (.group (.seq (.opt (.lit (bytesOf "/"))) (.many (noneOf (bytesOf " #?")))))
    (.seq (.opt (.lit (bytesOf "?")))
      (.seq (.group (.many (noneOf (bytesOf " #"))))
        (.seq (.opt (.lit (bytesOf "#"))) (.group (.many (noneOf (bytesOf " ")))))))

def urlRegexHost : Regex UInt8 :=
  .seq (.lit (bytesOf "://"))
    (.seq (.group (.many1 (noneOf (bytesOf "/ :"))))
      (.seq (.opt (.lit (bytesOf ":")))
        (.seq (.group (.many (noneOf (bytesOf "/ ")))) urlRegexPath)))

def urlRegex : Regex UInt8 :=
  .seq (.group (.alt (.lit (bytesOf "http")) (.lit (bytesOf "https")))) urlRegexHost

/-- `parse`, which matches `url_.c_str()`. -/
def HttpUrl.parse (u : HttpUrl) : HttpUrl :=
  if u.url = [] then u
  else
    match urlRegex.fullMatch (cStr u.url) with
    | some what =>
        { u with
          scheme := what.getD 0 []
          domain := what.getD 1 []
          port := what.getD 2 []
          path := what.getD 3 []
          query := what.getD 4 []
          fragment := what.getD 5 [] }
    | none => u

def httpUrlParser (url : Bytes) : HttpUrl := HttpUrl.parse ⟨⟨[], []⟩, url, [], [], [], []⟩

theorem httpUrlParser_of_match {url : Bytes} {what : List Bytes}
    (h : urlRegex.fullMatch (cStr url) = some what) :
    httpUrlParser url = ⟨⟨what.getD 1 [], what.getD 3 []⟩, url, what.getD 0 [], what.getD 2 [],
      what.getD 4 [], what.getD 5 []⟩ := by
  have hne : url ≠ [] := by
    rintro rfl
    cases h
  simp only [httpUrlParser, HttpUrl.parse, if_neg hne, h]

theorem httpUrlParser_of_noMatch {url : Bytes} (h : urlRegex.fullMatch (cStr url) = none) :
    httpUrlParser url = ⟨⟨[], []⟩, url, [], [], [], []⟩ := by
  simp only [httpUrlParser, HttpUrl.parse, h, ite_self]

/-- A group of a match ends in front of the first zero byte. -/
theorem zero_notMem_getD_fullMatch {r : Regex UInt8} {url : Bytes} {what : List Bytes}
    (h : r.fullMatch (cStr url) = some what) (i : ℕ) : 0 ∉ what.getD i [] := by
  intro h0
  rw [List.getD_eq_getElem?_getD] at h0
  cases hi : what[i]? with
  | none =>
      rw [hi] at h0
      cases h0
  | some g =>
      rw [hi, Option.getD_some] at h0
      have hwithin := (Regex.infix_of_mem_ways (Regex.mem_ways_of_fullMatch h)).2 g
        (List.mem_of_getElem? hi)
      have htake := List.mem_takeWhile_imp (hwithin.subset h0)
      simp at htake

end Daobell
