import Daobell.Http.Url

/-!
URLs by their parts. The pattern of the parser can match a URL in several ways;
the one it tries first finds the parts that the URL was made of, and every URL that
is accepted is made of such parts.
-/

namespace Daobell

open Lib

def optPart (mark : UInt8) (part : Option Bytes) : Bytes := part.elim [] (mark :: ·)

/-- The parts of a URL. A path is there when anything is behind the authority. -/
structure UrlParts where
  scheme : Bytes
  host : Bytes
  port : Option Bytes
  path : Bytes
  query : Option Bytes
  fragment : Option Bytes
  scheme_eq : scheme = bytesOf "http" ∨ scheme = bytesOf "https"
  host_ne_nil : host ≠ []
  host_free : ∀ b ∈ host, b ∉ bytesOf "/ :"
  port_free : ∀ b ∈ port.getD [], b ∉ bytesOf "/ "
  path_head : path.head? = some '/'.toUInt8 ∨ path = [] ∧ query = none ∧ fragment = none
  path_free : ∀ b ∈ path, b ∉ bytesOf " #?"
  query_free : ∀ b ∈ query.getD [], b ∉ bytesOf " #"
  fragment_free : ∀ b ∈ fragment.getD [], b ∉ bytesOf " "

namespace UrlParts

variable (u : UrlParts)

def tail : Bytes := optPart '?'.toUInt8 u.query ++ optPart '#'.toUInt8 u.fragment

def text : Bytes :=
  u.scheme ++ (bytesOf "://" ++ (u.host ++ (optPart ':'.toUInt8 u.port ++ (u.path ++ u.tail))))

def Found : Prop :=
  let p := httpUrlParser u.text
  p.scheme = u.scheme ∧ p.domain = u.host ∧ p.port = u.port.getD [] ∧ p.path = u.path ∧
    p.query = u.query.getD [] ∧ p.fragment = u.fragment.getD []

end UrlParts

/-! ### The match -/

theorem noneOf_eq_true {marks : Bytes} {b : UInt8} : noneOf marks b = true ↔ b ∉ marks := by
  simp [noneOf]

theorem noneOf_eq_false {marks : Bytes} {b : UInt8} : noneOf marks b = false ↔ b ∈ marks := by
  simp [noneOf]

/-- A part that may be missing is taken when its mark is there. -/
theorem first_optPart (mark : UInt8) {s : Regex UInt8} {part : Option Bytes} {more rest : Bytes}
    {gs : List Bytes} (hs : s.First (part.getD [] ++ more) rest gs)
    (hnone : part = none → (more ++ rest).head? ≠ some mark) :
    (Regex.seq (.opt (.lit [mark])) s).First (optPart mark part ++ more) rest gs := by
  cases part with
  | none =>
      have hmissing : ¬ [mark] <+: more ++ rest := by
        rintro ⟨t, ht⟩
        exact hnone rfl (by rw [← ht]; rfl)
      exact (Regex.first_opt_nil (Regex.ways_lit_of_not_prefix hmissing)).seq hs
  | some p => exact (Regex.first_lit [mark] _).opt.seq hs

/-- What stands behind a part begins with its mark, or with what stands behind that. -/
theorem head?_optPart (mark : UInt8) (part : Option Bytes) (rest : Bytes) :
    (optPart mark part ++ rest).head? = some mark ∨
      part = none ∧ (optPart mark part ++ rest).head? = rest.head? := by
  cases part with
  | none => exact .inr ⟨rfl, rfl⟩
  | some p => exact .inl rfl

namespace UrlParts

variable (u : UrlParts)

theorem first_fragment :
    (Regex.seq (.opt (.lit (bytesOf "#"))) (.group (.many (noneOf (bytesOf " "))))).First
      (optPart '#'.toUInt8 u.fragment) [] [u.fragment.getD []] := by
  have hgroup : (Regex.group (.many (noneOf (bytesOf " ")))).First (u.fragment.getD [] ++ []) []
      [u.fragment.getD []] := by
    rw [List.append_nil]
    exact (Regex.first_many (fun b hb => noneOf_eq_true.mpr (u.fragment_free b hb))
      (by simp)).group
  have h := first_optPart '#'.toUInt8 hgroup (by simp)
  rwa [List.append_nil] at h

theorem head?_fragment {b : UInt8}
    (hb : b ∈ (optPart '#'.toUInt8 u.fragment ++ []).head?) : b = '#'.toUInt8 := by
  rcases head?_optPart '#'.toUInt8 u.fragment [] with h | ⟨-, h⟩
  · exact Option.some.inj (hb.symm.trans h)
  · rw [h] at hb
    cases hb

theorem head?_tail {b : UInt8} (hb : b ∈ (u.tail ++ []).head?) :
    b = '?'.toUInt8 ∨ b = '#'.toUInt8 := by
  rw [tail, List.append_assoc] at hb
  rcases head?_optPart '?'.toUInt8 u.query (optPart '#'.toUInt8 u.fragment ++ []) with h | ⟨-, h⟩
  · exact .inl (Option.some.inj (hb.symm.trans h))
  · exact .inr (u.head?_fragment (by rwa [h] at hb))

theorem first_path :
    urlRegexPath.First (u.path ++ u.tail) [] [u.path, u.query.getD [], u.fragment.getD []] := by
  have hquery : (Regex.group (.many (noneOf (bytesOf " #")))).First (u.query.getD [])
      (optPart '#'.toUInt8 u.fragment ++ []) [u.query.getD []] := by
    refine (Regex.first_many (fun b hb => noneOf_eq_true.mpr (u.query_free b hb)) ?_).group
    intro b hb
    rw [u.head?_fragment hb]
    decide
  have hnone : u.query = none →
      (optPart '#'.toUInt8 u.fragment ++ []).head? ≠ some '?'.toUInt8 := by
    intro _ h
    exact absurd (u.head?_fragment h) (by decide)
  have hpath :
      (Regex.group (.seq (.opt (.lit (bytesOf "/"))) (.many (noneOf (bytesOf " #?"))))).First
        u.path (u.tail ++ []) [u.path] := by
    rcases u.path_head with hhead | ⟨hnil, hquery, hfragment⟩
    · obtain ⟨p, hp⟩ := List.head?_eq_some_iff.mp hhead
      have hfree : ∀ b ∈ p, b ∉ bytesOf " #?" :=
        fun b hb => u.path_free b (hp ▸ List.mem_cons_of_mem _ hb)
      have hmany : (Regex.many (noneOf (bytesOf " #?"))).First p (u.tail ++ []) [] := by
        refine Regex.first_many (fun b hb => noneOf_eq_true.mpr (hfree b hb)) ?_
        intro b hb
        rcases u.head?_tail hb with rfl | rfl <;> decide
      rw [hp]
      exact ((Regex.first_lit (bytesOf "/") _).opt.seq hmany).group
    · have hmany : (Regex.many (noneOf (bytesOf " #?"))).First [] [] [] :=
        Regex.first_many (by simp) (by simp)
      rw [hnil, tail, hquery, hfragment]
      exact ((Regex.first_opt_nil rfl).seq hmany).group
  exact hpath.seq (first_optPart '?'.toUInt8 (hquery.seq u.first_fragment) hnone)

theorem head?_path {b : UInt8} (hb : b ∈ ((u.path ++ u.tail) ++ []).head?) :
    b = '/'.toUInt8 := by
  rcases u.path_head with hhead | ⟨hnil, hquery, hfragment⟩
  · rw [List.append_assoc, List.head?_append, hhead] at hb
    exact (Option.some.inj hb).symm
  · rw [hnil, tail, hquery, hfragment] at hb
    cases hb

theorem first_host :
    urlRegexHost.First
      (bytesOf "://" ++ (u.host ++ (optPart ':'.toUInt8 u.port ++ (u.path ++ u.tail)))) []
      [u.host, u.port.getD [], u.path, u.query.getD [], u.fragment.getD []] := by
  have hport : (Regex.group (.many (noneOf (bytesOf "/ ")))).First (u.port.getD [])
      ((u.path ++ u.tail) ++ []) [u.port.getD []] := by
    refine (Regex.first_many (fun b hb => noneOf_eq_true.mpr (u.port_free b hb)) ?_).group
    intro b hb
    rw [u.head?_path hb]
    decide
  have hnone : u.port = none → ((u.path ++ u.tail) ++ []).head? ≠ some ':'.toUInt8 := by
    intro _ h
    exact absurd (u.head?_path h) (by decide)
  have hhost : (Regex.group (.many1 (noneOf (bytesOf "/ :")))).First u.host
      ((optPart ':'.toUInt8 u.port ++ (u.path ++ u.tail)) ++ []) [u.host] := by
    refine (Regex.first_many1 u.host_ne_nil
      (fun b hb => noneOf_eq_true.mpr (u.host_free b hb)) ?_).group
    intro b hb
    rw [List.append_assoc] at hb
    rcases head?_optPart ':'.toUInt8 u.port ((u.path ++ u.tail) ++ []) with h | ⟨-, h⟩
    · rw [h] at hb
      cases hb
      decide
    · rw [h] at hb
      rw [u.head?_path hb]
      decide
  exact (Regex.first_lit (bytesOf "://") _).seq
    (hhost.seq (first_optPart ':'.toUInt8 (hport.seq u.first_path) hnone))

theorem ways_https (more : Bytes) :
    (Regex.group (.alt (.lit (bytesOf "http")) (.lit (bytesOf "https")))).ways
        (bytesOf "https" ++ more) =
      [([bytesOf "http"], 's'.toUInt8 :: more), ([bytesOf "https"], more)] := by
  have hhttp : (Regex.lit (bytesOf "http")).ways (bytesOf "https" ++ more) =
      [([], 's'.toUInt8 :: more)] := Regex.ways_lit_append (bytesOf "http") ('s'.toUInt8 :: more)
  have hcapture : (bytesOf "https" ++ more).take
      ((bytesOf "https" ++ more).length - ('s'.toUInt8 :: more).length) = bytesOf "http" :=
    Regex.take_length_sub (bytesOf "http") ('s'.toUInt8 :: more)
  rw [Regex.ways_group, Regex.ways_alt, hhttp, Regex.ways_lit_append, List.singleton_append,
    List.map_cons, List.map_singleton, hcapture, Regex.take_length_sub]

/-- With either scheme the pattern goes on behind it; with `http` in front of an `s` it
does not. -/
theorem fullMatch_text : urlRegex.fullMatch u.text =
    some [u.scheme, u.host, u.port.getD [], u.path, u.query.getD [], u.fragment.getD []] := by
  refine Regex.First.fullMatch ?_
  have hhost := u.first_host
  rcases u.scheme_eq with h | h
  · rw [text, h]
    exact ((Regex.first_lit (bytesOf "http") _).alt (.lit (bytesOf "https"))).group.seq hhost
  · rw [text, h]
    have hdead : ∀ more, urlRegexHost.ways ('s'.toUInt8 :: more) = [] := fun _ => rfl
    refine Regex.First.seq_of_ways [([bytesOf "http"], _)] (ways_https _) ?_ hhost
    intro w hw
    rw [List.mem_singleton.mp hw]
    exact hdead _

theorem httpUrlParser_text {url : Bytes} (h : u.text = cStr url) :
    httpUrlParser url = ⟨⟨u.host, u.path⟩, url, u.scheme, u.port.getD [], u.query.getD [],
      u.fragment.getD []⟩ := by
  have hmatch := u.fullMatch_text
  rw [h] at hmatch
  exact httpUrlParser_of_match hmatch

theorem found_of_zero_notMem (h : 0 ∉ u.text) : u.Found := by
  rw [Found, u.httpUrlParser_text (cStr_eq_self h).symm]
  exact ⟨rfl, rfl, rfl, rfl, rfl, rfl⟩

theorem zero_notMem_optPart {mark : UInt8} {part : Option Bytes} (hmark : mark ≠ 0)
    (h : 0 ∉ part.getD []) : 0 ∉ optPart mark part := by
  cases part with
  | none => exact List.not_mem_nil
  | some p => exact List.not_mem_cons_of_ne_of_not_mem hmark.symm h

theorem zero_notMem_of_found (h : u.Found) : 0 ∉ u.text := by
  obtain ⟨hscheme, hdomain, hport, hpath, hquery, hfragment⟩ := h
  cases hmatch : urlRegex.fullMatch (cStr u.text) with
  | none =>
      rw [httpUrlParser_of_noMatch hmatch] at hscheme
      rcases u.scheme_eq with h | h <;> rw [h] at hscheme <;> cases hscheme
  | some what =>
      have hzero := fun i => zero_notMem_getD_fullMatch hmatch i
      rw [httpUrlParser_of_match hmatch] at hscheme hdomain hport hpath hquery hfragment
      have hport' : 0 ∉ u.port.getD [] := hport ▸ hzero 2
      have hquery' : 0 ∉ u.query.getD [] := hquery ▸ hzero 4
      have hfragment' : 0 ∉ u.fragment.getD [] := hfragment ▸ hzero 5
      simp only [text, tail, List.mem_append, not_or]
      exact ⟨hscheme ▸ hzero 0, by decide, hdomain ▸ hzero 1,
        zero_notMem_optPart (by decide) hport', hpath ▸ hzero 3,
        zero_notMem_optPart (by decide) hquery', zero_notMem_optPart (by decide) hfragment'⟩

end UrlParts

/-- **A URL is taken apart** into its parts, with every mix of those that may be
missing, exactly when it has no zero byte, which would end it. -/
theorem httpUrlParser_found_iff (u : UrlParts) : u.Found ↔ 0 ∉ u.text :=
  ⟨u.zero_notMem_of_found, u.found_of_zero_notMem⟩

def zeroUrl : UrlParts where
  scheme := bytesOf "http"
  host := bytesOf "h"
  port := none
  path := bytesOf "/"
  query := none
  fragment := some [97, 0, 98]
  scheme_eq := .inl rfl
  host_ne_nil := by decide
  host_free := List.forall_iff_forall_mem.mp (by decide)
  port_free := List.forall_iff_forall_mem.mp (by decide)
  path_head := .inl rfl
  path_free := List.forall_iff_forall_mem.mp (by decide)
  query_free := List.forall_iff_forall_mem.mp (by decide)
  fragment_free := List.forall_iff_forall_mem.mp (by decide)

theorem not_found_zeroUrl : ¬ zeroUrl.Found := by
  intro h
  have hfragment : (httpUrlParser zeroUrl.text).fragment = [97] := by decide +kernel
  rw [h.2.2.2.2.2] at hfragment
  exact absurd hfragment (by decide)

/-! ### The URLs that are accepted -/

theorem exists_optPart (mark : UInt8) (text : Bytes) :
    ∃ front part, text = front ++ optPart mark part ∧ mark ∉ front := by
  by_cases h : mark ∈ text
  · obtain ⟨front, rest, rfl, hfront⟩ := List.eq_append_cons_of_mem h
    exact ⟨front, some rest, rfl, hfront⟩
  · exact ⟨text, none, (List.append_nil text).symm, h⟩

theorem only_urlRegexHost : urlRegexHost.Only (· ≠ ' '.toUInt8) := by
  have hcls : ∀ marks, ' '.toUInt8 ∈ marks → ∀ b, noneOf marks b = true → b ≠ ' '.toUInt8 := by
    rintro marks hmem b hb rfl
    exact noneOf_eq_true.mp hb hmem
  have hlit : ∀ text : Bytes, ' '.toUInt8 ∉ text → ∀ b ∈ text, b ≠ ' '.toUInt8 :=
    fun text hnot b hb h => hnot (h ▸ hb)
  have hpath : urlRegexPath.Only (· ≠ ' '.toUInt8) :=
    ⟨⟨hlit _ (by decide), hcls _ (by decide)⟩, hlit _ (by decide), hcls _ (by decide),
      hlit _ (by decide), hcls _ (by decide)⟩
  exact ⟨hlit _ (by decide), ⟨hcls _ (by decide), hcls _ (by decide)⟩, hlit _ (by decide),
    hcls _ (by decide), hpath⟩

/-- What stands in front of the authority and at its beginning in a URL that is matched. -/
theorem exists_of_fullMatch {url : Bytes} {what : List Bytes}
    (h : urlRegex.fullMatch url = some what) :
    ∃ scheme rest, (scheme = bytesOf "http" ∨ scheme = bytesOf "https") ∧
      url = scheme ++ (bytesOf "://" ++ rest) ∧ ' '.toUInt8 ∉ rest ∧
      ∃ b ∈ rest.head?, b ∉ bytesOf "/ :" := by
  obtain ⟨_, mid, _, hscheme, hhost, -⟩ := Regex.mem_ways_seq.mp (Regex.mem_ways_of_fullMatch h)
  obtain ⟨used, hmid, hused⟩ := Regex.exists_of_mem_ways only_urlRegexHost hhost
  rw [List.append_nil] at hmid
  subst hmid
  obtain ⟨_, rest, _, hlit, hrest, -⟩ := Regex.mem_ways_seq.mp hhost
  obtain ⟨-, rfl⟩ := Regex.mem_ways_lit hlit
  obtain ⟨_, behind, _, hgroup, -, -⟩ := Regex.mem_ways_seq.mp hrest
  obtain ⟨_, hmany⟩ := Regex.mem_ways_group hgroup
  obtain ⟨_, _, _, hcls, -, -⟩ := Regex.mem_ways_seq.mp hmany
  obtain ⟨b, hb, hhead⟩ := Regex.mem_ways_cls hcls
  have hspace : ' '.toUInt8 ∉ rest := fun hmem => hused _ (List.mem_append_right _ hmem) rfl
  have hfirst : ∃ b ∈ rest.head?, b ∉ bytesOf "/ :" := by
    rw [hhead]
    exact ⟨b, rfl, noneOf_eq_true.mp hb⟩
  obtain ⟨_, halt⟩ := Regex.mem_ways_group hscheme
  rcases List.mem_append.mp halt with h | h
  · exact ⟨_, rest, .inl rfl, (Regex.mem_ways_lit h).2, hspace, hfirst⟩
  · exact ⟨_, rest, .inr rfl, (Regex.mem_ways_lit h).2, hspace, hfirst⟩

theorem notMem_of_forall {marks text : Bytes} (h : ∀ m ∈ marks, m ∉ text) :
    ∀ b ∈ text, b ∉ marks :=
  fun b hb hmem => h b hmem hb

theorem exists_host {authority : Bytes} (hslash : '/'.toUInt8 ∉ authority)
    (hspace : ' '.toUInt8 ∉ authority) {b : UInt8} (hb : b ∈ authority.head?)
    (hfree : b ∉ bytesOf "/ :") :
    ∃ host port, authority = host ++ optPart ':'.toUInt8 port ∧ host ≠ [] ∧
      (∀ b ∈ host, b ∉ bytesOf "/ :") ∧ ∀ b ∈ port.getD [], b ∉ bytesOf "/ " := by
  obtain ⟨host, port, rfl, hcolon⟩ := exists_optPart ':'.toUInt8 authority
  rw [List.mem_append, not_or] at hslash hspace
  refine ⟨host, port, rfl, ?_, notMem_of_forall ?_, notMem_of_forall ?_⟩
  · rintro rfl
    cases port with
    | none => cases hb
    | some p =>
        cases hb
        exact absurd hfree (by decide)
  · exact List.forall_mem_cons.mpr ⟨hslash.1, List.forall_mem_cons.mpr
      ⟨hspace.1, List.forall_mem_singleton.mpr hcolon⟩⟩
  · cases port with
    | none => exact fun _ _ => List.not_mem_nil
    | some p =>
        exact List.forall_mem_cons.mpr ⟨fun h => hslash.2 (List.mem_cons_of_mem _ h),
          List.forall_mem_singleton.mpr fun h => hspace.2 (List.mem_cons_of_mem _ h)⟩

theorem exists_path {rest : Bytes} (hspace : ' '.toUInt8 ∉ rest) :
    ∃ path query fragment, rest = path ++ (optPart '?'.toUInt8 query ++
        optPart '#'.toUInt8 fragment) ∧ (∀ b ∈ path, b ∉ bytesOf " #?") ∧
      (∀ b ∈ query.getD [], b ∉ bytesOf " #") ∧ ∀ b ∈ fragment.getD [], b ∉ bytesOf " " := by
  obtain ⟨front, fragment, rfl, hhash⟩ := exists_optPart '#'.toUInt8 rest
  obtain ⟨path, query, rfl, hquestion⟩ := exists_optPart '?'.toUInt8 front
  simp only [List.mem_append, not_or] at hspace hhash
  refine ⟨path, query, fragment, List.append_assoc _ _ _, notMem_of_forall ?_, notMem_of_forall ?_,
    notMem_of_forall ?_⟩
  · exact List.forall_mem_cons.mpr ⟨hspace.1.1, List.forall_mem_cons.mpr
      ⟨hhash.1, List.forall_mem_singleton.mpr hquestion⟩⟩
  · cases query with
    | none => exact fun _ _ => List.not_mem_nil
    | some q =>
        exact List.forall_mem_cons.mpr ⟨fun h => hspace.1.2 (List.mem_cons_of_mem _ h),
          List.forall_mem_singleton.mpr fun h => hhash.2 (List.mem_cons_of_mem _ h)⟩
  · cases fragment with
    | none => exact fun _ _ => List.not_mem_nil
    | some f =>
        exact List.forall_mem_singleton.mpr fun h => hspace.2 (List.mem_cons_of_mem _ h)

theorem exists_parts {url : Bytes} {what : List Bytes} (h : urlRegex.fullMatch url = some what) :
    ∃ u : UrlParts, u.text = url := by
  obtain ⟨scheme, rest, hscheme, rfl, hspace, b, hb, hfree⟩ := exists_of_fullMatch h
  obtain ⟨authority, after, rfl, hslash⟩ := exists_optPart '/'.toUInt8 rest
  rw [List.mem_append, not_or] at hspace
  have hhead : b ∈ authority.head? := by
    cases authority with
    | nil =>
        cases after with
        | none => cases hb
        | some p =>
            cases hb
            exact absurd hfree (by decide)
    | cons c authority => exact hb
  obtain ⟨host, port, rfl, hne, hhost, hport⟩ := exists_host hslash hspace.1 hhead hfree
  cases after with
  | none =>
      refine ⟨⟨scheme, host, port, [], none, none, hscheme, hne, hhost, hport,
        .inr ⟨rfl, rfl, rfl⟩, by simp, by simp, by simp⟩, ?_⟩
      simp [UrlParts.text, UrlParts.tail, optPart]
  | some p =>
      obtain ⟨path, query, fragment, rfl, hpath, hquery, hfragment⟩ :=
        exists_path fun h => hspace.2 (List.mem_cons_of_mem _ h)
      have hpath' : ∀ b ∈ '/'.toUInt8 :: path, b ∉ bytesOf " #?" :=
        List.forall_mem_cons.mpr ⟨by decide, hpath⟩
      refine ⟨⟨scheme, host, port, '/'.toUInt8 :: path, query, fragment, hscheme, hne, hhost,
        hport, .inl rfl, hpath', hquery, hfragment⟩, ?_⟩
      simp [UrlParts.text, UrlParts.tail, optPart]

theorem exists_parts_of_valid {url : Bytes} (h : (httpUrlParser url).valid = true) :
    ∃ u : UrlParts, u.text = cStr url := by
  cases hmatch : urlRegex.fullMatch (cStr url) with
  | none =>
      rw [httpUrlParser_of_noMatch hmatch] at h
      cases h
  | some what => exact exists_parts hmatch

end Daobell
