import Daobell.Lib.Percent

/-!
Query strings: parameters with ampersands between them, each a name and a value
with an equals sign between them, both percent-encoded.
-/

namespace Daobell.Lib

def ampersand : UInt8 := 38

def equalsSign : UInt8 := 61

def readParam (text : List UInt8) : List UInt8 × List UInt8 :=
  (percentDecode (text.takeWhile (· ≠ equalsSign)),
    percentDecode ((text.dropWhile (· ≠ equalsSign)).drop 1))

/-- The parameters of a query string. Between two ampersands in a row there is none. -/
def readQuery (query : List UInt8) : List (List UInt8 × List UInt8) :=
  ((query.splitOn ampersand).filter (· ≠ [])).map readParam

def writeParam (keep : UInt8 → Bool) (param : List UInt8 × List UInt8) : List UInt8 :=
  percentEncode keep param.1 ++ equalsSign :: percentEncode keep param.2

def writeQuery (keep : UInt8 → Bool) (params : List (List UInt8 × List UInt8)) : List UInt8 :=
  [ampersand].intercalate (params.map (writeParam keep))

section

variable {keep : UInt8 → Bool}

theorem writeQuery_cons (param : List UInt8 × List UInt8)
    (params : List (List UInt8 × List UInt8)) :
    writeQuery keep (param :: params) =
      writeParam keep param ++ params.flatMap fun param => ampersand :: writeParam keep param := by
  induction params generalizing param with
  | nil => simp [writeQuery]
  | cons param' params ih =>
      rw [List.flatMap_cons, List.cons_append, ← ih param']
      simp [writeQuery]

theorem readParam_writeParam (hpercent : keep percentSign = false)
    (hequals : keep equalsSign = false) (param : List UInt8 × List UInt8) :
    readParam (writeParam keep param) = param := by
  have hname : ∀ b ∈ percentEncode keep param.1, decide (b ≠ equalsSign) = true := by
    intro b hb
    have hencoded : PercentEncoded keep (percentEncode keep param.1) :=
      percentEncoded_percentEncode param.1
    have hnot := hencoded.notMem hequals (by decide) rfl
    exact decide_eq_true fun h => hnot (h ▸ hb)
  have htake : (writeParam keep param).takeWhile (· ≠ equalsSign) = percentEncode keep param.1 := by
    rw [writeParam, List.takeWhile_append_of_pos hname, List.takeWhile_cons_of_neg (by simp),
      List.append_nil]
  have hdrop : (writeParam keep param).dropWhile (· ≠ equalsSign) =
      equalsSign :: percentEncode keep param.2 := by
    rw [writeParam, List.dropWhile_append_of_pos hname, List.dropWhile_cons_of_neg (by simp)]
  rw [readParam, htake, hdrop, List.drop_one, List.tail_cons, percentDecode_percentEncode hpercent,
    percentDecode_percentEncode hpercent]

theorem writeParam_ne_nil (param : List UInt8 × List UInt8) : writeParam keep param ≠ [] :=
  List.append_ne_nil_of_right_ne_nil _ (List.cons_ne_nil _ _)

theorem notMem_writeParam {b : UInt8} (hb : keep b = false) (hsign : b ≠ percentSign)
    (hequals : b ≠ equalsSign) (hhex : hexValue b = none) (param : List UInt8 × List UInt8) :
    b ∉ writeParam keep param := by
  rw [writeParam, List.mem_append, List.mem_cons, not_or, not_or]
  exact ⟨(percentEncoded_percentEncode param.1).notMem hb hsign hhex, hequals,
    (percentEncoded_percentEncode param.2).notMem hb hsign hhex⟩

theorem notMem_writeQuery {b : UInt8} (hb : keep b = false) (hsign : b ≠ percentSign)
    (hequals : b ≠ equalsSign) (hampersand : b ≠ ampersand) (hhex : hexValue b = none)
    (params : List (List UInt8 × List UInt8)) : b ∉ writeQuery keep params := by
  have hparam := notMem_writeParam hb hsign hequals hhex
  cases params with
  | nil => exact List.not_mem_nil
  | cons param params =>
      rw [writeQuery_cons, List.mem_append, not_or, List.mem_flatMap]
      refine ⟨hparam param, ?_⟩
      rintro ⟨param', -, hmem⟩
      rcases List.mem_cons.mp hmem with rfl | hmem
      · exact hampersand rfl
      · exact hparam param' hmem

theorem readQuery_writeQuery (hpercent : keep percentSign = false)
    (hequals : keep equalsSign = false) (hampersand : keep ampersand = false)
    (params : List (List UInt8 × List UInt8)) : readQuery (writeQuery keep params) = params := by
  by_cases hne : params = []
  · subst hne
    rfl
  have hplain : ∀ text ∈ params.map (writeParam keep), ampersand ∉ text := by
    intro text htext
    obtain ⟨param, -, rfl⟩ := List.mem_map.mp htext
    exact notMem_writeParam hampersand (by decide) (by decide) rfl param
  have hall : ∀ text ∈ params.map (writeParam keep), decide (text ≠ []) = true := by
    intro text htext
    obtain ⟨param, -, rfl⟩ := List.mem_map.mp htext
    exact decide_eq_true (writeParam_ne_nil param)
  rw [readQuery, writeQuery, List.splitOn_intercalate ampersand hplain (by simpa using hne),
    List.filter_eq_self.mpr hall, List.map_map]
  exact (List.map_congr_left fun param _ =>
    readParam_writeParam hpercent hequals param).trans (List.map_id params)

end

end Daobell.Lib
