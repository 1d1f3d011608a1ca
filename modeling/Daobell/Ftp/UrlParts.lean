import Daobell.Ftp.Url
import Daobell.Http.UrlParts

/-!
FTP URLs by their parts. The parser finds the parts that a URL was made of, with every
mix of those that may be missing, unless a mark within the path is taken for another.
-/

namespace Daobell

def ftpText (userPassword : Option (Bytes × Bytes)) (host : Bytes) (port path : Option Bytes) :
    Bytes :=
  bytesOf "ftp://" ++
    (userPassword.elim [] (fun up => up.1 ++ ':'.toUInt8 :: up.2 ++ bytesOf "@") ++
    (host ++ (optPart ':'.toUInt8 port ++ optPart '/'.toUInt8 path)))

structure FtpParts where
  userPassword : Option (Bytes × Bytes)
  host : Bytes
  port : Option Bytes
  path : Option Bytes
  user_free : ∀ up ∈ userPassword, ∀ b ∈ up.1, b ∉ bytesOf ":/@"
  password_free : ∀ up ∈ userPassword, ∀ b ∈ up.2, b ∉ bytesOf "/@"
  host_ne_nil : host ≠ []
  host_free : ∀ b ∈ host, b ∉ bytesOf ":/@"
  port_digits : ∀ b ∈ port.getD [], b ∈ bytesOf "0123456789"
  length_lt : (ftpText userPassword host port path).length < 2 ^ 63

/-- What stands behind the authority, with the slash that it begins with, is cut at its
last slash. The directory of a file in the root is the root. -/
def PathFile (pathFile dir file : Bytes) : Prop :=
  ∃ front, pathFile = front ++ '/'.toUInt8 :: file ∧ '/'.toUInt8 ∉ file ∧
    dir = if front = [] then bytesOf "/" else front

namespace FtpParts

variable (u : FtpParts)

def text : Bytes := ftpText u.userPassword u.host u.port u.path

def domainPort : Bytes := u.host ++ (optPart ':'.toUInt8 u.port ++ optPart '/'.toUInt8 u.path)

def Found : Prop :=
  ∃ p, ftpUrlParser u.text = .ok p ∧
    p.user = (u.userPassword.map Prod.fst).getD (bytesOf "anonymous") ∧
    p.password = (u.userPassword.map Prod.snd).getD (bytesOf "anonymous") ∧
    p.domain = u.host ∧ p.port = u.port.getD (bytesOf "21") ∧
    match u.path with
    | none => p.path = [] ∧ p.file = []
    | some path => PathFile ('/'.toUInt8 :: path) p.path p.file

def ColonClear : Prop := u.port = none → ':'.toUInt8 ∉ u.path.getD []

/-- No `@` of the path is taken for the end of a password: what looks for the slash in
front of it stops at a zero byte. -/
def AtClear : Prop := u.userPassword = none → '@'.toUInt8 ∈ u.path.getD [] → 0 ∉ u.host

end FtpParts

/-! ### The `@` behind the password -/

@[simp] theorem atLoop_none (s : Bytes) (p : ℕ) : atLoop s p none = none := by
  induction s generalizing p with
  | nil => rfl
  | cons b rest ih =>
      rw [atLoop]
      split
      · simp only [Option.bind_none, ite_self, ih]
      · exact ih _

/-- The `@` is kept when no slash stands between the protocol and it. -/
theorem atLoop_some {s : Bytes} {p at2 : ℕ}
    (h : ∀ k, s.tail[k]? = some '/'.toUInt8 → 6 < p + 1 + k → at2 ≤ p + 1 + k) :
    atLoop s p (some at2) = some at2 := by
  induction s generalizing p with
  | nil => rfl
  | cons b rest ih =>
      have hrest : atLoop rest (p + 1) (some at2) = some at2 := by
        refine ih fun k hk hlt => ?_
        have htail := h (k + 1) (by rwa [List.tail_cons, ← List.getElem?_tail]) (by omega)
        omega
      rw [atLoop]
      split
      · rename_i d hd
        have hslash : rest[d]? = some '/'.toUInt8 := by
          obtain ⟨t, ht⟩ := ((findBytes_eq_some_iff (by decide)).mp hd).1
          rw [← Nat.add_zero d, ← List.getElem?_drop, ← ht]
          rfl
        dsimp only
        split
        · rename_i hfar
          rw [Option.bind_some, if_neg (by have := h d hslash hfar; omega), hrest]
        · exact hrest
      · exact hrest

theorem atLoop_dropped {s : Bytes} {p at2 k : ℕ} (hslash : s.tail[k]? = some '/'.toUInt8)
    (hfar : 6 < p + 1 + k) (hk : p + 1 + k < at2) : atLoop s p (some at2) = none := by
  induction s generalizing p k with
  | nil => cases hslash
  | cons b rest ih =>
      rw [List.tail_cons] at hslash
      cases k with
      | zero =>
          have hfind : findBytes (bytesOf "/") rest = some 0 := by
            rw [findBytes_eq_some_iff (by decide)]
            refine ⟨?_, by simp⟩
            cases rest with
            | nil => cases hslash
            | cons c rest =>
                cases hslash
                exact ⟨rest, rfl⟩
          simp only [atLoop, hfind, if_pos hfar, Option.bind_some, if_pos hk, atLoop_none]
      | succ k =>
          have hrest : atLoop rest (p + 1) (some at2) = none :=
            ih (k := k) (by rwa [List.getElem?_tail]) (by omega) (by omega)
          rw [atLoop]
          split
          · dsimp only
            split
            · rw [Option.bind_some]
              split
              · exact atLoop_none _ _
              · exact hrest
            · exact hrest
          · exact hrest

theorem getElem?_of_cStr {s : Bytes} {k : ℕ} {b : UInt8} (h : (cStr s)[k]? = some b) :
    s[k]? = some b := by
  have hcut : cStr s <+: s := List.takeWhile_prefix _
  obtain ⟨hlt, hget⟩ := List.getElem?_eq_some_iff.mp h
  exact List.getElem?_eq_some_iff.mpr
    ⟨hlt.trans_le hcut.length_le, (hcut.getElem hlt).symm.trans hget⟩

/-- The first `@`, when the loop finds no slash in front of it. -/
theorem userEnd_eq_some {creds rest : Bytes} (hat : '@'.toUInt8 ∉ creds)
    (h : ∀ k, (cStr (bytesOf "ftp://" ++ (creds ++ '@'.toUInt8 :: rest)))[k]? = some '/'.toUInt8 →
      6 < k → 6 + creds.length ≤ k) :
    userEnd (bytesOf "ftp://" ++ (creds ++ '@'.toUInt8 :: rest)) = some (6 + creds.length) := by
  have hfront : '@'.toUInt8 ∉ bytesOf "ftp://" ++ creds := by
    rw [List.mem_append, not_or]
    exact ⟨by decide, hat⟩
  have hfind : findFirstOf ['@'.toUInt8]
      (bytesOf "ftp://" ++ (creds ++ '@'.toUInt8 :: rest)) = some (6 + creds.length) := by
    rw [← List.append_assoc, findFirstOf_char hfront, List.length_append]
    rfl
  rw [userEnd, hfind]
  refine atLoop_some fun k hk hfar => ?_
  rw [List.getElem?_tail] at hk
  have hle := h (k + 1) hk (by omega)
  omega

/-- No slash stands in front of an `@` that ends a user and a password. -/
theorem userEnd_of_slash_notMem {creds : Bytes} (hat : '@'.toUInt8 ∉ creds)
    (hslash : '/'.toUInt8 ∉ creds) (rest : Bytes) :
    userEnd (bytesOf "ftp://" ++ (creds ++ '@'.toUInt8 :: rest)) = some (6 + creds.length) := by
  refine userEnd_eq_some hat fun k hk hfar => ?_
  by_contra hlt
  have hget := getElem?_of_cStr hk
  rw [List.getElem?_append_right (Nat.le_of_lt hfar), List.getElem?_append_left] at hget
  · exact hslash (List.mem_of_getElem? hget)
  · have hsix : (bytesOf "ftp://").length = 6 := rfl
    omega

/-- An `@` behind a slash that a zero byte hides from the loop. -/
theorem userEnd_of_zero_mem {host creds : Bytes} (hzero : 0 ∈ host)
    (hslash : '/'.toUInt8 ∉ host) (hat : '@'.toUInt8 ∉ host ++ creds) (rest : Bytes) :
    userEnd (bytesOf "ftp://" ++ ((host ++ creds) ++ '@'.toUInt8 :: rest)) =
      some (6 + (host ++ creds).length) := by
  refine userEnd_eq_some hat fun k hk hfar => ?_
  rw [List.append_assoc, ← List.append_assoc,
    cStr_append_of_mem (List.mem_append_right _ hzero)] at hk
  have hget := getElem?_of_cStr hk
  rw [List.getElem?_append_right (Nat.le_of_lt hfar)] at hget
  exact absurd (List.mem_of_getElem? hget) hslash

/-- An `@` that the loop finds to be a part of the path, or none. -/
theorem userEnd_of_path {authority path : Bytes} (hne : authority ≠ [])
    (hat : '@'.toUInt8 ∉ authority) (hzero : '@'.toUInt8 ∈ path → 0 ∉ authority) :
    userEnd (bytesOf "ftp://" ++ (authority ++ '/'.toUInt8 :: path)) = none := by
  have hpos := List.length_pos_iff.mpr hne
  have hfront : '@'.toUInt8 ∉ bytesOf "ftp://" ++ (authority ++ bytesOf "/") := by
    simp only [List.mem_append, not_or]
    exact ⟨by decide, hat, by decide⟩
  have htext : bytesOf "ftp://" ++ (authority ++ '/'.toUInt8 :: path) =
      (bytesOf "ftp://" ++ (authority ++ bytesOf "/")) ++ path := by
    rw [List.append_assoc, List.append_assoc]
    rfl
  by_cases hmem : '@'.toUInt8 ∈ path
  · have hcStr : cStr (bytesOf "ftp://" ++ (authority ++ '/'.toUInt8 :: path)) =
        (bytesOf "ftp://" ++ (authority ++ bytesOf "/")) ++ cStr path := by
      have hfree : (0 : UInt8) ∉ bytesOf "ftp://" ++ (authority ++ bytesOf "/") := by
        simp only [List.mem_append, not_or]
        exact ⟨by decide, hzero hmem, by decide⟩
      rw [htext, cStr_append hfree]
    obtain ⟨front, rest, rfl, hfree⟩ := List.eq_append_cons_of_mem hmem
    have hfind : findFirstOf ['@'.toUInt8]
        (bytesOf "ftp://" ++ (authority ++ '/'.toUInt8 :: (front ++ '@'.toUInt8 :: rest))) =
        some (7 + authority.length + front.length) := by
      rw [htext, ← List.append_assoc, findFirstOf_char]
      · simp only [List.length_append]
        have hsix : (bytesOf "ftp://").length = 6 := rfl
        have hone : (bytesOf "/").length = 1 := rfl
        congr 1
        omega
      · rw [List.mem_append, not_or]
        exact ⟨hfront, hfree⟩
    rw [userEnd, hfind, hcStr]
    refine atLoop_dropped (k := 5 + authority.length) ?_ (by omega) (by omega)
    have hsix : (bytesOf "ftp://").length = 6 := rfl
    rw [List.getElem?_tail, List.append_assoc, List.getElem?_append_right (by omega),
      List.append_assoc, List.getElem?_append_right (by omega)]
    have hzero' : 5 + authority.length + 1 - (bytesOf "ftp://").length - authority.length = 0 := by
      omega
    rw [hzero']
    rfl
  · have hnone : '@'.toUInt8 ∉ bytesOf "ftp://" ++ (authority ++ '/'.toUInt8 :: path) := by
      rw [htext, List.mem_append, not_or]
      exact ⟨hfront, hmem⟩
    rw [userEnd, findFirstOf_char_eq_none hnone, atLoop_none]

/-! ### The steps of the parser -/

theorem findFirstOf_delimiter (rest : Bytes) :
    findFirstOf (bytesOf "://") (bytesOf "ftp://" ++ rest) = some 3 := by
  have hcolon : findFirstOf (bytesOf "://")
      (bytesOf "ftp" ++ ':'.toUInt8 :: (bytesOf "//" ++ rest)) = some (bytesOf "ftp").length :=
    findFirstOf_append_cons (List.forall_iff_forall_mem.mp (by decide)) (by decide) _
  exact hcolon

namespace FtpUrl

variable {p : FtpUrl} {creds rest : Bytes}

theorem parseUser_of_userEnd_none (hurl : p.url = bytesOf "ftp://" ++ rest)
    (hlength : p.url.length < 2 ^ 63) (hend : userEnd p.url = none) :
    p.parseUser = .ok (some
      ({ p with user := bytesOf "anonymous", password := bytesOf "anonymous" }, rest)) := by
  have hsize : p.url.length = 6 + rest.length := by
    rw [hurl, List.length_append]
    rfl
  have hcount : subSize (subSize p.url.length 3) 3 = rest.length := by
    rw [subSize_subSize_of_le (by omega) (by omega)]
    omega
  have hrest : substr p.url ((3 + 3) % 2 ^ 64) (subSize (subSize p.url.length 3) 3) =
      .ok rest := by
    rw [hcount, hurl]
    exact substr_rest rfl le_rfl
  have hpos : findFirstOf (bytesOf "://") p.url = some 3 := hurl ▸ findFirstOf_delimiter rest
  rw [parseUser, hpos, hend]
  simp only [Option.getD_some, hrest, ok_bind]
  rfl

/-- What `parseUser` does with the text in front of an `@`. -/
theorem parseUser_of_userEnd_some
    (hurl : p.url = bytesOf "ftp://" ++ (creds ++ '@'.toUInt8 :: rest))
    (hlength : p.url.length < 2 ^ 63) (hend : userEnd p.url = some (6 + creds.length)) :
    p.parseUser = match findFirstOf [':'.toUInt8] creds with
      | none => .ok none
      | some pos => do
          let user ← substr creds 0 pos
          let password ← substr creds (pos + 1) (subSize (subSize creds.length pos) 1)
          let domainPort ← substr p.url (6 + creds.length + 1)
            (subSize (subSize p.url.length pos) 1)
          return some ({ p with user := user, password := password }, domainPort) := by
  have hsize : p.url.length = 6 + (creds.length + (rest.length + 1)) := by
    rw [hurl, List.length_append, List.length_append]
    rfl
  have hcount : subSize (subSize (6 + creds.length) 3) 3 = creds.length := by
    rw [subSize_subSize_of_le (by omega) (by omega)]
    omega
  have hcreds : substr p.url (3 + 3) (subSize (subSize (6 + creds.length) 3) 3) = .ok creds := by
    rw [hcount, hurl]
    exact substr_mid rfl rfl _
  have hpos : findFirstOf (bytesOf "://") p.url = some 3 := hurl ▸ findFirstOf_delimiter _
  rw [parseUser, hpos, hend]
  simp only [hcreds, ok_bind]
  rfl

theorem parseUser_of_noColon (hurl : p.url = bytesOf "ftp://" ++ (creds ++ '@'.toUInt8 :: rest))
    (hlength : p.url.length < 2 ^ 63) (hend : userEnd p.url = some (6 + creds.length))
    (hcolon : ':'.toUInt8 ∉ creds) : p.parseUser = .ok none := by
  rw [parseUser_of_userEnd_some hurl hlength hend, findFirstOf_char_eq_none hcolon]

theorem parseUser_of_colon {user password : Bytes}
    (hcreds : creds = user ++ ':'.toUInt8 :: password)
    (hurl : p.url = bytesOf "ftp://" ++ (creds ++ '@'.toUInt8 :: rest))
    (hlength : p.url.length < 2 ^ 63) (hend : userEnd p.url = some (6 + creds.length))
    (hcolon : ':'.toUInt8 ∉ user) :
    p.parseUser = .ok (some ({ p with user := user, password := password }, rest)) := by
  have hsize : p.url.length = 6 + (creds.length + (rest.length + 1)) := by
    rw [hurl, List.length_append, List.length_append]
    rfl
  have hcreds_length : creds.length = user.length + (password.length + 1) := by
    rw [hcreds, List.length_append]
    rfl
  have huser : substr creds 0 user.length = .ok user := by
    rw [hcreds]
    exact substr_mid (a := []) rfl rfl _
  have hpassword : substr creds (user.length + 1)
      (subSize (subSize creds.length user.length) 1) = .ok password := by
    have hcount : subSize (subSize creds.length user.length) 1 = password.length := by
      rw [subSize_subSize_of_le (by omega) (by omega)]
      omega
    have hfront : creds = (user ++ bytesOf ":") ++ password := by
      rw [hcreds, List.append_assoc]
      rfl
    rw [hcount, hfront]
    exact substr_rest (by rw [List.length_append]; rfl) le_rfl
  have hrest : substr p.url (6 + creds.length + 1)
      (subSize (subSize p.url.length user.length) 1) = .ok rest := by
    have hcount : rest.length ≤ subSize (subSize p.url.length user.length) 1 := by
      rw [subSize_subSize_of_le (by omega) (by omega)]
      omega
    have hfront : p.url = (bytesOf "ftp://" ++ (creds ++ bytesOf "@")) ++ rest := by
      rw [hurl, List.append_assoc, List.append_assoc]
      rfl
    have hpos : 6 + creds.length + 1 = (bytesOf "ftp://" ++ (creds ++ bytesOf "@")).length := by
      rw [List.length_append, List.length_append, Nat.add_assoc]
      rfl
    rw [hfront] at hcount ⊢
    exact substr_rest hpos hcount
  rw [parseUser_of_userEnd_some hurl hlength hend, hcreds, findFirstOf_char hcolon, ← hcreds]
  simp only [huser, hpassword, hrest, ok_bind]
  rfl

theorem parsePath_slash {front file : Bytes} (hslash : '/'.toUInt8 ∉ file)
    (hlength : (front ++ '/'.toUInt8 :: file).length < 2 ^ 63) :
    p.parsePath (front ++ '/'.toUInt8 :: file) =
      .ok { p with path := if front = [] then bytesOf "/" else front, file := file } := by
  have hsize : (front ++ '/'.toUInt8 :: file).length = front.length + (file.length + 1) :=
    List.length_append
  have hfile : substr (front ++ '/'.toUInt8 :: file) (front.length + 1)
      (subSize (subSize (front ++ '/'.toUInt8 :: file).length front.length) 1) = .ok file := by
    have hcount :
        subSize (subSize (front ++ '/'.toUInt8 :: file).length front.length) 1 = file.length := by
      rw [subSize_subSize_of_le (by omega) (by omega)]
      omega
    have htext : front ++ '/'.toUInt8 :: file = (front ++ bytesOf "/") ++ file := by
      rw [List.append_assoc]
      rfl
    rw [hcount, htext]
    exact substr_rest (by rw [List.length_append]; rfl) le_rfl
  rw [parsePath, findLastOf_append_cons hslash]
  cases front with
  | nil =>
      have hzero : subSize ([] ++ '/'.toUInt8 :: file).length 1 =
          subSize (subSize ([] ++ '/'.toUInt8 :: file).length 0) 1 := by
        rw [subSize_of_le (Nat.zero_le _) (by omega)]
        rfl
      rw [List.length_nil, Nat.zero_add] at hfile
      simp only [List.length_nil, hzero, hfile, ok_bind, if_true]
      rfl
  | cons b front =>
      have hpath : substr ((b :: front) ++ '/'.toUInt8 :: file) 0 (b :: front).length =
          .ok (b :: front) := substr_mid (a := []) rfl rfl _
      have hmod : ((b :: front).length + 1) % 2 ^ 64 = (b :: front).length + 1 :=
        Nat.mod_eq_of_lt (by omega)
      simp only [List.length_cons] at hpath hmod hfile ⊢
      simp only [Option.getD_some, hmod, hpath, hfile, ok_bind, reduceCtorEq, if_false]
      rfl

variable {host path : Bytes} {port : Option Bytes}

theorem parseDomain_authority (hslash : '/'.toUInt8 ∉ host ++ port.getD [])
    (hcolon : ':'.toUInt8 ∉ host) (hlength : (host ++ optPart ':'.toUInt8 port).length < 2 ^ 63) :
    p.parseDomain (host ++ optPart ':'.toUInt8 port) =
      .ok { p with domain := host, port := port.getD (bytesOf "21"), path := [], file := [] } := by
  rw [List.mem_append, not_or] at hslash
  cases port with
  | none =>
      have hdomain : substr host 0 npos = .ok host := by
        refine substr_rest (a := []) rfl ?_
        simp only [optPart, Option.elim_none, List.append_nil] at hlength
        simp only [npos]
        omega
      simp only [optPart, Option.elim_none, List.append_nil, parseDomain,
        findFirstOf_char_eq_none hslash.1, findFirstOf_char_eq_none hcolon, hdomain, ok_bind]
      rfl
  | some port =>
      have hnone : '/'.toUInt8 ∉ host ++ ':'.toUInt8 :: port := by
        simp only [List.mem_append, List.mem_cons, not_or]
        exact ⟨hslash.1, by decide, hslash.2⟩
      have hdomain : substr (host ++ ':'.toUInt8 :: port) 0 host.length = .ok host :=
        substr_mid (a := []) rfl rfl _
      have hport : substr (host ++ ':'.toUInt8 :: port) (host.length + 1)
          (host ++ ':'.toUInt8 :: port).length = .ok port := by
        have htext : host ++ ':'.toUInt8 :: port = (host ++ bytesOf ":") ++ port := by
          rw [List.append_assoc]
          rfl
        rw [htext]
        exact substr_rest (by rw [List.length_append]; rfl) (by simp; omega)
      simp only [optPart, Option.elim_some, parseDomain, findFirstOf_char_eq_none hnone,
        findFirstOf_char hcolon, hdomain, hport, ok_bind]
      rfl

/-- The slash behind an authority, and what stands behind it. -/
theorem parseDomain_of_slash {authority : Bytes} (hslash : '/'.toUInt8 ∉ authority)
    (hlength : (authority ++ '/'.toUInt8 :: path).length < 2 ^ 63) :
    p.parseDomain (authority ++ '/'.toUInt8 :: path) =
      (match findFirstOf [':'.toUInt8] (authority ++ '/'.toUInt8 :: path) with
      | none => parsePath { p with domain := authority, port := bytesOf "21" } ('/'.toUInt8 :: path)
      | some posTemp => do
          let domain ← substr (authority ++ '/'.toUInt8 :: path) 0 posTemp
          let port ← substr (authority ++ '/'.toUInt8 :: path) (posTemp + 1)
            (subSize (subSize authority.length posTemp) 1)
          parsePath { p with domain := domain, port := port } ('/'.toUInt8 :: path)) := by
  have hdomain : substr (authority ++ '/'.toUInt8 :: path) 0 authority.length = .ok authority :=
    substr_mid (a := []) rfl rfl _
  have hpath : substr (authority ++ '/'.toUInt8 :: path) authority.length
      (subSize (authority ++ '/'.toUInt8 :: path).length authority.length) =
      .ok ('/'.toUInt8 :: path) := by
    rw [subSize_of_le (by simp) (by omega), List.length_append, Nat.add_sub_cancel_left]
    exact substr_rest rfl le_rfl
  rw [parseDomain, findFirstOf_char hslash]
  cases findFirstOf [':'.toUInt8] (authority ++ '/'.toUInt8 :: path) with
  | none => simp only [hdomain, hpath, ok_bind]
  | some posTemp => simp only [hpath, ok_bind]

/-- An authority with a path in which no colon is taken for the one of a port. -/
theorem parseDomain_path (hslash : '/'.toUInt8 ∉ host ++ port.getD []) (hcolon : ':'.toUInt8 ∉ host)
    (hclear : port = none → ':'.toUInt8 ∉ path)
    (hlength : (host ++ (optPart ':'.toUInt8 port ++ '/'.toUInt8 :: path)).length < 2 ^ 63) :
    p.parseDomain (host ++ (optPart ':'.toUInt8 port ++ '/'.toUInt8 :: path)) =
      parsePath { p with domain := host, port := port.getD (bytesOf "21") }
        ('/'.toUInt8 :: path) := by
  rw [List.mem_append, not_or] at hslash
  cases port with
  | none =>
      have hnone : ':'.toUInt8 ∉ host ++ '/'.toUInt8 :: path := by
        simp only [List.mem_append, List.mem_cons, not_or]
        exact ⟨hcolon, by decide, hclear rfl⟩
      simp only [optPart, Option.elim_none, List.nil_append] at hlength ⊢
      rw [parseDomain_of_slash hslash.1 hlength, findFirstOf_char_eq_none hnone]
      rfl
  | some port =>
      have hfree : '/'.toUInt8 ∉ host ++ ':'.toUInt8 :: port := by
        simp only [List.mem_append, List.mem_cons, not_or]
        exact ⟨hslash.1, by decide, hslash.2⟩
      have hdomain : substr (host ++ ':'.toUInt8 :: (port ++ '/'.toUInt8 :: path)) 0 host.length =
          .ok host := substr_mid (a := []) rfl rfl _
      have hport : substr (host ++ ':'.toUInt8 :: (port ++ '/'.toUInt8 :: path)) (host.length + 1)
          (subSize (subSize (host ++ ':'.toUInt8 :: port).length host.length) 1) = .ok port := by
        have hcount :
            subSize (subSize (host ++ ':'.toUInt8 :: port).length host.length) 1 = port.length := by
          simp only [optPart, Option.elim_some, List.length_append, List.length_cons] at hlength ⊢
          rw [subSize_subSize_of_le (by omega) (by omega)]
          omega
        have htext : host ++ ':'.toUInt8 :: (port ++ '/'.toUInt8 :: path) =
            (host ++ bytesOf ":") ++ (port ++ '/'.toUInt8 :: path) := by
          rw [List.append_assoc]
          rfl
        rw [hcount, htext]
        exact substr_mid (by rw [List.length_append]; rfl) rfl _
      have hassoc : host ++ (optPart ':'.toUInt8 (some port) ++ '/'.toUInt8 :: path) =
          (host ++ ':'.toUInt8 :: port) ++ '/'.toUInt8 :: path := (List.append_assoc _ _ _).symm
      have hassoc' : (host ++ ':'.toUInt8 :: port) ++ '/'.toUInt8 :: path =
          host ++ ':'.toUInt8 :: (port ++ '/'.toUInt8 :: path) := List.append_assoc _ _ _
      rw [hassoc] at hlength ⊢
      rw [parseDomain_of_slash hfree hlength, hassoc', findFirstOf_char hcolon]
      simp only [hdomain, hport, ok_bind]
      rfl

theorem parsePath_frame {pathFile : Bytes} {q : FtpUrl} (h : p.parsePath pathFile = .ok q) :
    q.user = p.user ∧ q.domain = p.domain := by
  rw [parsePath] at h
  split at h
  · obtain ⟨file, -, ⟨⟩⟩ := bind_eq_ok.mp h
    exact ⟨rfl, rfl⟩
  · obtain ⟨dir, -, h⟩ := bind_eq_ok.mp h
    obtain ⟨file, -, ⟨⟩⟩ := bind_eq_ok.mp h
    exact ⟨rfl, rfl⟩

theorem parseDomain_user {domainPort : Bytes} {q : FtpUrl} (h : p.parseDomain domainPort = .ok q) :
    q.user = p.user := by
  rw [parseDomain] at h
  split at h
  · obtain ⟨domain, -, ⟨⟩⟩ := bind_eq_ok.mp h
    rfl
  · obtain ⟨domain, -, h⟩ := bind_eq_ok.mp h
    obtain ⟨port, -, ⟨⟩⟩ := bind_eq_ok.mp h
    rfl
  · obtain ⟨domain, -, h⟩ := bind_eq_ok.mp h
    obtain ⟨pathFile, -, h⟩ := bind_eq_ok.mp h
    exact (parsePath_frame h).1
  · obtain ⟨domain, -, h⟩ := bind_eq_ok.mp h
    obtain ⟨port, -, h⟩ := bind_eq_ok.mp h
    obtain ⟨pathFile, -, h⟩ := bind_eq_ok.mp h
    exact (parsePath_frame h).1

/-- A colon of the path makes what is in front of it a part of the domain. -/
theorem domain_ne_of_colon {q : FtpUrl} (hslash : '/'.toUInt8 ∉ host) (hcolon : ':'.toUInt8 ∉ host)
    (hmem : ':'.toUInt8 ∈ path) (hlength : (host ++ '/'.toUInt8 :: path).length < 2 ^ 63)
    (h : p.parseDomain (host ++ '/'.toUInt8 :: path) = .ok q) : q.domain ≠ host := by
  obtain ⟨front, rest, rfl, hfront⟩ := List.eq_append_cons_of_mem hmem
  have hfree : ':'.toUInt8 ∉ host ++ '/'.toUInt8 :: front := by
    simp only [List.mem_append, List.mem_cons, not_or]
    exact ⟨hcolon, by decide, hfront⟩
  have htext : host ++ '/'.toUInt8 :: (front ++ ':'.toUInt8 :: rest) =
      (host ++ '/'.toUInt8 :: front) ++ ':'.toUInt8 :: rest := by
    rw [List.append_assoc]
    rfl
  have hdomain : substr ((host ++ '/'.toUInt8 :: front) ++ ':'.toUInt8 :: rest) 0
      (host ++ '/'.toUInt8 :: front).length = .ok (host ++ '/'.toUInt8 :: front) :=
    substr_mid (a := []) rfl rfl _
  rw [parseDomain_of_slash hslash hlength, htext, findFirstOf_char hfree] at h
  simp only [hdomain, ok_bind] at h
  obtain ⟨port, -, h⟩ := bind_eq_ok.mp h
  rw [(parsePath_frame h).2]
  intro heq
  have hcount := congrArg List.length heq
  rw [List.length_append, List.length_cons] at hcount
  omega

end FtpUrl

/-! ### The parts that are found -/

theorem ftpUrlParser_eq (rest : Bytes) :
    ftpUrlParser (bytesOf "ftp://" ++ rest) =
      (do
        match ← FtpUrl.parseUser ⟨bytesOf "ftp://" ++ rest, [], [], [], [], [], []⟩ with
        | none => return ⟨bytesOf "ftp://" ++ rest, [], [], [], [], [], []⟩
        | some (p, domainPort) => p.parseDomain domainPort) := by
  have hfind : findBytes (bytesOf "ftp://") (bytesOf "ftp://" ++ rest) ≠ none := by
    rw [Ne, findBytes_eq_none_iff (by decide), not_forall]
    exact ⟨0, not_not.mpr (List.prefix_append _ _)⟩
  have hne : bytesOf "ftp://" ++ rest ≠ [] := List.append_ne_nil_of_left_ne_nil (by decide) _
  rw [ftpUrlParser, FtpUrl.parse, if_neg hne, if_neg hfind]
  cases FtpUrl.parseUser ⟨bytesOf "ftp://" ++ rest, [], [], [], [], [], []⟩ with
  | error e => rfl
  | ok r =>
      cases r with
      | none => rfl
      | some r =>
          obtain ⟨p, domainPort⟩ := r
          simp only [ok_bind]
          cases p.parseDomain domainPort <;> rfl

/-- Some bytes are none of those that a part must be free of. -/
theorem notMem_of_free {marks part : Bytes} (h : ∀ b ∈ part, b ∉ marks) {m : UInt8}
    (hm : m ∈ marks) : m ∉ part :=
  fun hmem => h m hmem hm

namespace FtpParts

variable (u : FtpParts)

theorem text_of_user {user password : Bytes} (h : u.userPassword = some (user, password)) :
    u.text = bytesOf "ftp://" ++
      ((user ++ ':'.toUInt8 :: password) ++ '@'.toUInt8 :: u.domainPort) := by
  rw [text, ftpText, h, Option.elim_some, List.append_assoc, List.append_assoc, List.append_assoc]
  rfl

theorem text_of_anonymous (h : u.userPassword = none) :
    u.text = bytesOf "ftp://" ++ u.domainPort := by
  rw [text, ftpText, h, Option.elim_none, List.nil_append, domainPort]

theorem port_notMem {m : UInt8} (hm : m ∉ bytesOf "0123456789") : m ∉ u.port.getD [] :=
  fun hmem => hm (u.port_digits m hmem)

theorem authority_notMem {m : UInt8} (hhost : m ∉ u.host) (hm : m ∉ bytesOf "0123456789")
    (hcolon : m ≠ ':'.toUInt8) : m ∉ u.host ++ optPart ':'.toUInt8 u.port := by
  have hport := u.port_notMem hm
  cases hp : u.port with
  | none => simpa [optPart] using hhost
  | some port =>
      rw [hp] at hport
      simp only [optPart, Option.elim_some, List.mem_append, List.mem_cons, not_or]
      exact ⟨hhost, hcolon, hport⟩

theorem userEnd_of_anonymous (h : u.userPassword = none) (hclear : u.AtClear) :
    userEnd u.text = none := by
  have hat : '@'.toUInt8 ∉ u.host ++ optPart ':'.toUInt8 u.port :=
    u.authority_notMem (notMem_of_free u.host_free (by decide)) (by decide) (by decide)
  cases hpath : u.path with
  | none =>
      have hnone : '@'.toUInt8 ∉ u.text := by
        rw [u.text_of_anonymous h, domainPort, hpath, ← List.append_assoc u.host, List.mem_append,
          List.mem_append, not_or, not_or]
        exact ⟨by decide, hat, List.not_mem_nil⟩
      rw [userEnd, findFirstOf_char_eq_none hnone, atLoop_none]
  | some path =>
      have htext : u.text = bytesOf "ftp://" ++
          ((u.host ++ optPart ':'.toUInt8 u.port) ++ '/'.toUInt8 :: path) := by
        rw [u.text_of_anonymous h, domainPort, hpath, ← List.append_assoc u.host]
        rfl
      rw [htext]
      refine userEnd_of_path (List.append_ne_nil_of_left_ne_nil u.host_ne_nil _) hat fun hmem => ?_
      exact u.authority_notMem (hclear h (by rwa [hpath])) (by decide) (by decide)

/-- The user and the password, when no `@` of the path is taken for the one behind them. -/
theorem parseUser_text (hclear : u.AtClear) :
    FtpUrl.parseUser ⟨u.text, [], [], [], [], [], []⟩ = .ok (some
      (⟨u.text, (u.userPassword.map Prod.fst).getD (bytesOf "anonymous"),
        (u.userPassword.map Prod.snd).getD (bytesOf "anonymous"), [], [], [], []⟩,
        u.domainPort)) := by
  cases hup : u.userPassword with
  | none =>
      exact FtpUrl.parseUser_of_userEnd_none (u.text_of_anonymous hup) u.length_lt
        (u.userEnd_of_anonymous hup hclear)
  | some up =>
      obtain ⟨user, password⟩ := up
      have hmem : (user, password) ∈ u.userPassword := hup
      have huser := u.user_free _ hmem
      have hpassword := u.password_free _ hmem
      have hfree : ∀ m ∈ bytesOf "/@", m ∉ user ++ ':'.toUInt8 :: password := by
        intro m hm
        simp only [List.mem_append, List.mem_cons, not_or]
        exact ⟨notMem_of_free huser (List.mem_cons_of_mem _ hm),
          fun hcolon => absurd (hcolon ▸ hm) (by decide), notMem_of_free hpassword hm⟩
      refine FtpUrl.parseUser_of_colon rfl (u.text_of_user hup) u.length_lt ?_
        (notMem_of_free huser (by decide))
      change userEnd u.text = _
      rw [u.text_of_user hup]
      exact userEnd_of_slash_notMem (hfree _ (by decide)) (hfree _ (by decide)) _

/-- What is behind the user and the password is parsed for itself. -/
theorem ftpUrlParser_text (hclear : u.AtClear) :
    ftpUrlParser u.text =
      FtpUrl.parseDomain ⟨u.text, (u.userPassword.map Prod.fst).getD (bytesOf "anonymous"),
        (u.userPassword.map Prod.snd).getD (bytesOf "anonymous"), [], [], [], []⟩ u.domainPort := by
  have htext : ∃ rest, u.text = bytesOf "ftp://" ++ rest := ⟨_, rfl⟩
  have huser := u.parseUser_text hclear
  obtain ⟨rest, hrest⟩ := htext
  rw [hrest] at huser ⊢
  rw [ftpUrlParser_eq, huser, ok_bind]

theorem length_domainPort : u.domainPort.length < 2 ^ 63 := by
  refine Nat.lt_of_le_of_lt ?_ u.length_lt
  have hsuffix : u.domainPort <:+ u.text :=
    (List.suffix_append _ _).trans (List.suffix_append _ _)
  exact hsuffix.length_le

theorem slash_notMem : '/'.toUInt8 ∉ u.host ++ u.port.getD [] := by
  rw [List.mem_append, not_or]
  exact ⟨notMem_of_free u.host_free (by decide), u.port_notMem (by decide)⟩

theorem colon_notMem : ':'.toUInt8 ∉ u.host := notMem_of_free u.host_free (by decide)

theorem found_of_clear (hcolon : u.ColonClear) (hat : u.AtClear) : u.Found := by
  have hlength := u.length_domainPort
  rw [Found, u.ftpUrlParser_text hat]
  cases hpath : u.path with
  | none =>
      rw [domainPort, hpath] at hlength ⊢
      simp only [optPart, Option.elim_none, List.append_nil] at hlength ⊢
      exact ⟨_, FtpUrl.parseDomain_authority u.slash_notMem u.colon_notMem hlength, rfl, rfl, rfl,
        rfl, rfl, rfl⟩
  | some path =>
      have hclear : u.port = none → ':'.toUInt8 ∉ path := fun h => by
        have hnotMem := hcolon h
        rwa [hpath] at hnotMem
      obtain ⟨front, file, hlast, hslash⟩ :
          ∃ front file, '/'.toUInt8 :: path = front ++ '/'.toUInt8 :: file ∧
            '/'.toUInt8 ∉ file := by
        obtain ⟨file, front, hreverse, hfree⟩ := List.eq_append_cons_of_mem
          (List.mem_reverse.mpr (List.mem_cons_self (a := '/'.toUInt8) (l := path)))
        refine ⟨front.reverse, file.reverse, ?_, by rwa [List.mem_reverse]⟩
        have hback := congrArg List.reverse hreverse
        rwa [List.reverse_reverse, List.reverse_append, List.reverse_cons, List.append_assoc]
          at hback
      have hdomain : u.domainPort =
          u.host ++ (optPart ':'.toUInt8 u.port ++ '/'.toUInt8 :: path) := by
        rw [domainPort, hpath]
        rfl
      rw [hdomain] at hlength ⊢
      have hsplit (p : FtpUrl) : p.parsePath ('/'.toUInt8 :: path) =
          .ok { p with path := if front = [] then bytesOf "/" else front, file := file } := by
        rw [hlast]
        refine FtpUrl.parsePath_slash hslash ?_
        rw [← hlast]
        refine Nat.lt_of_le_of_lt ?_ hlength
        rw [List.length_append, List.length_append]
        omega
      have hparse (p : FtpUrl) := (FtpUrl.parseDomain_path (p := p) u.slash_notMem u.colon_notMem
        hclear hlength).trans (hsplit _)
      exact ⟨_, hparse _, rfl, rfl, rfl, rfl, front, hlast, hslash, rfl⟩

/-- With a zero byte in the host, an `@` of the path is taken for the end of a password. -/
theorem user_of_zero_mem {path : Bytes} {p : FtpUrl} (h : u.userPassword = none)
    (hpath : u.path = some path) (hmem : '@'.toUInt8 ∈ path) (hzero : 0 ∈ u.host)
    (hp : ftpUrlParser u.text = .ok p) : p.domain = [] ∨ 0 ∈ p.user := by
  obtain ⟨front, rest, rfl, hfront⟩ := List.eq_append_cons_of_mem hmem
  have hat := u.authority_notMem (notMem_of_free u.host_free (by decide)) (by decide)
    (by decide : '@'.toUInt8 ≠ ':'.toUInt8)
  rw [List.mem_append, not_or] at hat
  have hcreds : '@'.toUInt8 ∉ u.host ++ (optPart ':'.toUInt8 u.port ++ '/'.toUInt8 :: front) := by
    simp only [List.mem_append, List.mem_cons, not_or] at hat ⊢
    exact ⟨hat.1, hat.2, by decide, hfront⟩
  have htext : u.text = bytesOf "ftp://" ++
      ((u.host ++ (optPart ':'.toUInt8 u.port ++ '/'.toUInt8 :: front)) ++
        '@'.toUInt8 :: rest) := by
    rw [u.text_of_anonymous h, domainPort, hpath, List.append_assoc, List.append_assoc]
    rfl
  have hend := userEnd_of_zero_mem hzero (notMem_of_free u.host_free (by decide)) hcreds rest
  have hlength : u.text.length < 2 ^ 63 := u.length_lt
  rw [htext] at hp hlength
  rw [ftpUrlParser_eq] at hp
  by_cases hcolon : ':'.toUInt8 ∈ u.host ++ (optPart ':'.toUInt8 u.port ++ '/'.toUInt8 :: front)
  · obtain ⟨user, password, heq, hfree⟩ := List.eq_append_cons_of_mem hcolon
    rw [FtpUrl.parseUser_of_colon heq rfl hlength hend hfree, ok_bind] at hp
    have huser : p.user = user := FtpUrl.parseDomain_user hp
    rw [huser]
    right
    rcases List.append_eq_append_iff.mp heq with ⟨more, rfl, -⟩ | ⟨more, hhost, hmore⟩
    · exact List.mem_append_left _ hzero
    · cases more with
      | nil => rwa [hhost, List.append_nil] at hzero
      | cons b more =>
          cases hmore
          refine absurd ?_ u.colon_notMem
          rw [hhost]
          exact List.mem_append_right _ List.mem_cons_self
  · rw [FtpUrl.parseUser_of_noColon rfl hlength hend hcolon, ok_bind] at hp
    cases hp
    exact .inl rfl

theorem atClear_of_found (h : u.Found) : u.AtClear := by
  intro hanonymous hmem hzero
  obtain ⟨p, hp, huser, -, hdomain, -⟩ := h
  rw [hanonymous] at huser
  cases hpath : u.path with
  | none =>
      rw [hpath] at hmem
      cases hmem
  | some path =>
      rw [hpath] at hmem
      rcases u.user_of_zero_mem hanonymous hpath hmem hzero hp with hnil | hzero'
      · exact u.host_ne_nil (hdomain.symm.trans hnil)
      · rw [huser] at hzero'
        exact absurd hzero' (by decide)

theorem colonClear_of_found (h : u.Found) : u.ColonClear := by
  intro hport hmem
  have hat := u.atClear_of_found h
  obtain ⟨q, hq, -, -, hdomain, -⟩ := h
  rw [u.ftpUrlParser_text hat] at hq
  cases hpath : u.path with
  | none =>
      rw [hpath] at hmem
      cases hmem
  | some path =>
      have hlength := u.length_domainPort
      have htext : u.domainPort = u.host ++ '/'.toUInt8 :: path := by
        rw [domainPort, hport, hpath]
        rfl
      rw [hpath] at hmem
      rw [htext] at hlength hq
      exact FtpUrl.domain_ne_of_colon (notMem_of_free u.host_free (by decide)) u.colon_notMem hmem
        hlength hq hdomain

end FtpParts

/-- **An FTP URL is taken apart** into its parts exactly when no mark of its path comes
first: a colon where there is no port, or an `@` where there is no user and a zero byte
of the host hides the slash between them. -/
theorem ftpUrlParser_found_iff (u : FtpParts) : u.Found ↔ u.ColonClear ∧ u.AtClear :=
  ⟨fun h => ⟨u.colonClear_of_found h, u.atClear_of_found h⟩, fun h => u.found_of_clear h.1 h.2⟩

def colonUrl : FtpParts where
  userPassword := none
  host := bytesOf "host"
  port := none
  path := some (bytesOf "a:b")
  user_free := by simp
  password_free := by simp
  host_ne_nil := by decide
  host_free := List.forall_iff_forall_mem.mp (by decide)
  port_digits := List.forall_iff_forall_mem.mp (by decide)
  length_lt := by decide

/-- Its host is found to be `host/a`. -/
theorem not_found_colonUrl : ¬ colonUrl.Found := by
  rintro ⟨p, hp, -, -, hdomain, -⟩
  have hparse : (ftpUrlParser colonUrl.text).map FtpUrl.domain = .ok (bytesOf "host/a") := by
    decide +kernel
  rw [hp, Except.map, hdomain] at hparse
  exact absurd (Except.ok.inj hparse) (by decide)

end Daobell
