import Daobell.Cxx

/-!
The parser of FTP URLs, `ftp_url_parser.cpp`. It looks for the marks between the parts
with searches over all that is left of the URL, so that a mark within the path can be
taken for one in front of it.
-/

namespace Daobell

structure FtpUrl where
  url : Bytes
  user : Bytes
  password : Bytes
  domain : Bytes
  port : Bytes
  path : Bytes
  file : Bytes
  deriving DecidableEq

/-- The loop over the characters of the URL, the first of them at `p`. A slash that
stands behind the protocol and in front of the `@` at `pos2` makes the `@` a part of the
path. -/
def atLoop : Bytes → ℕ → Option ℕ → Option ℕ
  | [], _, pos2 => pos2
  | _ :: rest, p, pos2 =>
      atLoop rest (p + 1) <|
        match findBytes (bytesOf "/") rest with
        | some d =>
            let distance := p + 1 + d
            if 6 < distance then pos2.bind fun at2 => if distance < at2 then none else some at2
            else pos2
        | none => pos2

/-- Where the `@` behind the user and the password is. -/
def userEnd (url : Bytes) : Option ℕ := atLoop (cStr url) 0 (findFirstOf ['@'.toUInt8] url)

namespace FtpUrl

/-- The first part of `parse`: the user and the password, and what stands behind them. In
front of an `@` there must be a colon. -/
def parseUser (u : FtpUrl) : Except Crash (Option (FtpUrl × Bytes)) :=
  match findFirstOf (bytesOf "://") u.url, userEnd u.url with
  | some pos1, some pos2 => do
      let userPassword ← substr u.url (pos1 + 3) (subSize (subSize pos2 pos1) 3)
      match findFirstOf [':'.toUInt8] userPassword with
      | none => return none
      | some pos => do
          let user ← substr userPassword 0 pos
          let password ← substr userPassword (pos + 1)
            (subSize (subSize userPassword.length pos) 1)
          let domainPort ← substr u.url (pos2 + 1) (subSize (subSize u.url.length pos) 1)
          return some ({ u with user := user, password := password }, domainPort)
  | pos1, _ => do
      let domainPort ← substr u.url ((pos1.getD npos + 3) % 2 ^ 64)
        (subSize (subSize u.url.length (pos1.getD npos)) 3)
      return some ({ u with user := bytesOf "anonymous", password := bytesOf "anonymous" },
        domainPort)

def parsePath (u : FtpUrl) (pathFile : Bytes) : Except Crash FtpUrl :=
  match findLastOf '/'.toUInt8 pathFile with
  | some 0 => do
      let file ← substr pathFile 1 (subSize pathFile.length 1)
      return { u with path := bytesOf "/", file := file }
  | last => do
      let posTemp := last.getD npos
      let path ← substr pathFile 0 posTemp
      let file ← substr pathFile ((posTemp + 1) % 2 ^ 64)
        (subSize (subSize pathFile.length posTemp) 1)
      return { u with path := path, file := file }

/-- The second part of `parse`: the domain and the port, the path and the file. -/
def parseDomain (u : FtpUrl) (domainPort : Bytes) : Except Crash FtpUrl :=
  match findFirstOf ['/'.toUInt8] domainPort, findFirstOf [':'.toUInt8] domainPort with
  | none, none => do
      let domain ← substr domainPort 0 npos
      return { u with domain := domain, port := bytesOf "21", path := [], file := [] }
  | none, some posTemp => do
      let domain ← substr domainPort 0 posTemp
      let port ← substr domainPort (posTemp + 1) domainPort.length
      return { u with domain := domain, port := port, path := [], file := [] }
  | some pos, none => do
      let domain ← substr domainPort 0 pos
      let pathFile ← substr domainPort pos (subSize domainPort.length pos)
      parsePath { u with domain := domain, port := bytesOf "21" } pathFile
  | some pos, some posTemp => do
      let domain ← substr domainPort 0 posTemp
      let port ← substr domainPort (posTemp + 1) (subSize (subSize pos posTemp) 1)
      let pathFile ← substr domainPort pos (subSize domainPort.length pos)
      parsePath { u with domain := domain, port := port } pathFile

def parse (u : FtpUrl) : Except Crash (FtpUrl × ℤ) :=
  if u.url = [] then return (u, -1)
  else if findBytes (bytesOf "ftp://") u.url = none then return (u, -1)
  else do
    match ← u.parseUser with
    | none => return (u, -1)
    | some (u, domainPort) => do
        let u ← u.parseDomain domainPort
        return (u, 0)

end FtpUrl

def ftpUrlParser (url : Bytes) : Except Crash FtpUrl :=
  (FtpUrl.parse ⟨url, [], [], [], [], [], []⟩).map Prod.fst

end Daobell
