import Mathlib

/-!
# Names in peer certificates

`DefaultClientAccessManager` compares the name of a host with a name from a certificate, in which an
asterisk stands for the rest of a label. Text is a list of bytes; the host is a C string, and the name
has a length of its own. `matchName_iff` says which names match a host, and `confined_of_verifyName`
that none reaches beyond the labels of the host it was issued for.
-/

set_option autoImplicit false
set_option relaxedAutoImplicit false

namespace ZephyrThrift.Transport

/-! ### Comparing names -/

def asterisk : UInt8 := 42

def dot : UInt8 := 46

/-- The characters of a C string: those in front of the first NUL. -/
def cString (text : List UInt8) : List UInt8 := text.takeWhile (· ≠ 0)

/-- `uppercase`, for ASCII letters only. -/
def uppercase (c : UInt8) : UInt8 := if 97 ≤ c ∧ c ≤ 122 then c - 32 else c

/-- The loop of `matchName`, on what is left of the pattern and of the host. -/
def matchLoop : List UInt8 → List UInt8 → Bool
  | [], host => host = []
  | _ :: _, [] => false
  | p :: pattern, c :: host =>
    if uppercase p = uppercase c then matchLoop pattern host
    else if p = asterisk then matchLoop pattern ((c :: host).dropWhile (· ≠ dot))
    else false

/-- `matchName`; the pattern is the bytes that its argument `size` counts. -/
def matchName (host pattern : List UInt8) : Bool := matchLoop pattern (cString host)

/-- `AccessManager::Decision`. -/
inductive Decision
  | deny
  | skip
  | allow
  deriving DecidableEq, Repr

/-- The address in a `sockaddr_storage`, as far as its family is looked at. -/
inductive PeerAddress
  | inet (address : Vector UInt8 4)
  | inet6 (address : Vector UInt8 16)
  | other
  deriving DecidableEq, Repr

/-- `DefaultClientAccessManager::verify` on an address alone. -/
def verifyPeer (_ : PeerAddress) : Decision := .skip

/-- `DefaultClientAccessManager::verify` on a name; `name` holds at least `size` bytes. -/
def verifyName (host : List UInt8) (name : Option (List UInt8)) (size : ℤ) : Decision :=
  match name with
  | none => .skip
  | some name =>
    if host = [] ∨ size ≤ 0 then .skip
    else if matchName host (name.take size.toNat) then .allow else .skip

/-- `DefaultClientAccessManager::verify` on an address in a certificate; `data` holds at least `size`
bytes. -/
def verifyAddress (sa : PeerAddress) (data : List UInt8) (size : ℤ) : Decision :=
  match sa with
  | .inet address =>
    if size = 4 ∧ address.toList = data.take 4 then .allow else .skip
  | .inet6 address =>
    if size = 16 ∧ address.toList = data.take 16 then .allow else .skip
  | .other => .skip

/-! ### The names that match -/

/-- The hosts of a name: a character stands for itself, in either case, and an asterisk for the rest of
a label, which it may not be asked for behind the end of the host. Where the host holds an asterisk, the
name's stands for that. -/
inductive NameMatches : List UInt8 → List UInt8 → Prop
  | done : NameMatches [] []
  | char {p c : UInt8} {pattern host : List UInt8} (hsame : uppercase p = uppercase c)
      (hrest : NameMatches pattern host) : NameMatches (p :: pattern) (c :: host)
  | star {label pattern host : List UInt8} (hlabel : dot ∉ label)
      (hend : host = [] ∨ host.head? = some dot) (hmore : label ++ host ≠ [])
      (hfirst : (label ++ host).head? ≠ some asterisk) (hrest : NameMatches pattern host) :
      NameMatches (asterisk :: pattern) (label ++ host)

theorem uppercase_eq_iff {c x : UInt8} (hx : x < 65) : uppercase c = x ↔ c = x := by
  unfold uppercase
  split_ifs with hletter
  · have hlow := UInt8.le_iff_toNat_le.mp hletter.1
    have hx := UInt8.lt_iff_toNat_lt.mp hx
    have hsub : (c - 32).toNat = c.toNat - 32 :=
      UInt8.toNat_sub_of_le c 32 (UInt8.le_iff_toNat_le.mpr (by simp at hlow ⊢; omega))
    rw [← UInt8.toNat_inj, ← UInt8.toNat_inj, hsub]
    simp at hlow hx
    omega
  · rfl

theorem uppercase_same {c x : UInt8} (hx : x < 65) : uppercase x = uppercase c ↔ c = x := by
  rw [(uppercase_eq_iff hx).mpr rfl, eq_comm, uppercase_eq_iff hx]

/-- What is left of a label is what stands in front of the next dot. -/
theorem dropWhile_label {label host : List UInt8} (hlabel : dot ∉ label)
    (hend : host = [] ∨ host.head? = some dot) :
    (label ++ host).dropWhile (· ≠ dot) = host := by
  have hpass : ∀ c ∈ label, decide (c ≠ dot) = true := by
    intro c hc
    refine decide_eq_true ?_
    rintro rfl
    exact hlabel hc
  rw [List.dropWhile_append_of_pos hpass]
  rcases hend with rfl | hdot
  · rfl
  · obtain ⟨rest, rfl⟩ := List.head?_eq_some_iff.mp hdot
    rw [List.dropWhile_cons_of_neg (by simp)]

theorem exists_label (host : List UInt8) : ∃ label rest, host = label ++ rest ∧ dot ∉ label ∧
    (rest = [] ∨ rest.head? = some dot) ∧ host.dropWhile (· ≠ dot) = rest := by
  refine ⟨host.takeWhile (· ≠ dot), host.dropWhile (· ≠ dot), List.takeWhile_append_dropWhile.symm,
    fun hmem ↦ ?_, ?_, rfl⟩
  · simpa using List.mem_takeWhile_imp hmem
  · cases hrest : host.dropWhile (· ≠ dot) with
    | nil => exact .inl rfl
    | cons c rest =>
      have hc := List.head?_dropWhile_not (· ≠ dot) host
      rw [hrest] at hc
      have hdot : c = dot := by simpa using hc
      exact .inr (by rw [hdot]; rfl)

theorem matchLoop_iff (pattern : List UInt8) :
    ∀ host, matchLoop pattern host = true ↔ NameMatches pattern host := by
  induction pattern with
  | nil =>
    intro host
    rw [matchLoop, decide_eq_true_eq]
    constructor
    · rintro rfl
      exact .done
    · rintro ⟨⟩
      rfl
  | cons p pattern ih =>
    intro host
    cases host with
    | nil =>
      constructor
      · intro h
        cases h
      · intro h
        generalize hnil : ([] : List UInt8) = host at h
        cases h with
        | char => cases hnil
        | star _ _ hmore _ _ => exact absurd hnil.symm hmore
    | cons c host =>
      by_cases hsame : uppercase p = uppercase c
      · rw [matchLoop, if_pos hsame, ih]
        constructor
        · exact .char hsame
        · intro h
          generalize hhost : c :: host = whole at h
          cases h with
          | char _ hrest =>
            cases hhost
            exact hrest
          | star _ _ _ hfirst _ =>
            rw [← hhost, (uppercase_same (by decide)).mp hsame] at hfirst
            exact absurd rfl hfirst
      · rw [matchLoop, if_neg hsame]
        by_cases hstar : p = asterisk
        · subst hstar
          rw [if_pos rfl, ih]
          constructor
          · intro h
            obtain ⟨label, rest, hhost, hlabel, hend, hdrop⟩ := exists_label (c :: host)
            rw [hdrop] at h
            rw [hhost]
            refine .star hlabel hend (by rw [← hhost]; simp) ?_ h
            rw [← hhost]
            rintro hc
            cases hc
            exact hsame rfl
          · intro h
            generalize hhost : c :: host = whole at h
            cases h with
            | char hchar _ =>
              cases hhost
              exact absurd hchar hsame
            | star hlabel hend _ _ hrest =>
              rw [dropWhile_label hlabel hend]
              exact hrest
        · rw [if_neg hstar]
          constructor
          · intro h
            cases h
          · intro h
            generalize hhost : c :: host = whole at h
            cases h with
            | char hchar _ =>
              cases hhost
              exact absurd hchar hsame
            | star => exact absurd rfl hstar

/-- A certificate name matches a host exactly where it is one of the names that stand for it. -/
theorem matchName_iff (host pattern : List UInt8) :
    matchName host pattern = true ↔ NameMatches pattern (cString host) :=
  matchLoop_iff pattern (cString host)

theorem zero_notMem_cString (text : List UInt8) : 0 ∉ cString text := by
  intro hmem
  simpa using List.mem_takeWhile_imp hmem

theorem NameMatches.count_dot {pattern host : List UInt8} (h : NameMatches pattern host) :
    pattern.count dot = host.count dot := by
  induction h with
  | done => rfl
  | @char p c pattern host hsame _ ih =>
    have hdot : p = dot ↔ c = dot := by
      rw [← uppercase_eq_iff (show dot < 65 by decide), hsame,
        uppercase_eq_iff (show dot < 65 by decide)]
    by_cases hc : c = dot
    · rw [hdot.mpr hc, hc, List.count_cons_self, List.count_cons_self, ih]
    · rw [List.count_cons_of_ne fun hp ↦ hc (hdot.mp hp), List.count_cons_of_ne hc, ih]
  | star hlabel _ _ _ _ ih =>
    rw [List.count_append, List.count_eq_zero_of_not_mem hlabel, zero_add,
      List.count_cons_of_ne (by decide), ih]

theorem NameMatches.zero_notMem {pattern host : List UInt8} (h : NameMatches pattern host) :
    0 ∉ host → 0 ∉ pattern := by
  induction h with
  | done => exact fun hnone ↦ hnone
  | @char p c pattern host hsame _ ih =>
    intro hnone hmem
    rcases List.mem_cons.mp hmem with hp | hmem
    · refine hnone (List.mem_cons.mpr (.inl ?_))
      rw [← hp] at hsame
      exact ((uppercase_same (by decide)).mp hsame).symm
    · exact ih (fun hhost ↦ hnone (List.mem_cons_of_mem _ hhost)) hmem
  | star _ _ _ _ _ ih =>
    intro hnone hmem
    rcases List.mem_cons.mp hmem with hp | hmem
    · cases hp
    · exact ih (fun hhost ↦ hnone (List.mem_append_right _ hhost)) hmem

theorem NameMatches.eq_uppercase {pattern host : List UInt8} (h : NameMatches pattern host) :
    asterisk ∉ pattern → pattern.map uppercase = host.map uppercase := by
  induction h with
  | done => exact fun _ ↦ rfl
  | char hsame _ ih =>
    intro hnone
    rw [List.map_cons, List.map_cons, hsame, ih fun hmem ↦ hnone (List.mem_cons_of_mem _ hmem)]
  | star => exact fun hnone ↦ absurd List.mem_cons_self hnone

theorem nameMatches_of_uppercase (pattern : List UInt8) :
    ∀ host, pattern.map uppercase = host.map uppercase → NameMatches pattern host := by
  induction pattern with
  | nil =>
    intro host hsame
    rw [List.map_eq_nil_iff.mp hsame.symm]
    exact .done
  | cons p pattern ih =>
    intro host hsame
    cases host with
    | nil => cases hsame
    | cons c host =>
      rw [List.map_cons, List.map_cons, List.cons.injEq] at hsame
      exact .char hsame.1 (ih host hsame.2)

/-- What a name that matches has in common with the host. -/
structure Confined (host pattern : List UInt8) : Prop where
  labels : pattern.count dot = (cString host).count dot
  noZero : 0 ∉ pattern
  plain : asterisk ∉ pattern → pattern.map uppercase = (cString host).map uppercase

/-- The default access manager never denies. It allows a name only for hosts with as many labels as the
name has, and never one that holds a NUL; without an asterisk, exactly one that is the same up to the
case of letters. -/
theorem confined_of_verifyName (host : List UInt8) (name : Option (List UInt8)) (size : ℤ) :
    verifyName host name size ≠ .deny ∧
      (verifyName host name size = .allow ↔ host ≠ [] ∧ 0 < size ∧ ∃ bytes, name = some bytes ∧
        matchName host (bytes.take size.toNat) = true) ∧
      ∀ pattern, (matchName host pattern = true → Confined host pattern) ∧
        (pattern.map uppercase = (cString host).map uppercase → matchName host pattern = true) := by
  refine ⟨?_, ?_, fun pattern ↦ ⟨fun hmatch ↦ ?_, fun hsame ↦ ?_⟩⟩
  · unfold verifyName
    split
    · simp
    · split_ifs <;> simp
  · cases name with
    | none => simp [verifyName]
    | some bytes =>
      simp only [verifyName, Option.some.injEq, exists_eq_left']
      split_ifs with hempty hmatch
      · simp only [false_iff]
        rintro ⟨hhost, hsize, -⟩
        rcases hempty with rfl | hle
        · exact hhost rfl
        · omega
      · simp only [true_iff]
        rw [not_or, not_le] at hempty
        exact ⟨hempty.1, hempty.2, hmatch⟩
      · simp only [false_iff]
        exact fun h ↦ hmatch h.2.2
  · have hnames := (matchLoop_iff pattern (cString host)).mp hmatch
    exact ⟨hnames.count_dot, hnames.zero_notMem (zero_notMem_cString host), hnames.eq_uppercase⟩
  · exact (matchLoop_iff pattern (cString host)).mpr (nameMatches_of_uppercase pattern _ hsame)

end ZephyrThrift.Transport
