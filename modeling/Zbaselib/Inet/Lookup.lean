import Zbaselib.Inet.Format

/-!
# Looking up a server

`zbaselib_socket_getipbyname` takes an address literal or the name of a host.
The two outputs can be `NULL`, and the text of the address is written before a
literal is read.  `inet_aton` and the answer of the resolver are arguments.
-/

namespace Zbaselib.Inet

open Program Block CString

/-! ## The function -/

/-- `struct in_addr`, as its bytes in memory. -/
structure InAddr where
  a : UInt8
  b : UInt8
  c : UInt8
  d : UInt8
  deriving DecidableEq

def inetNtoa (addr : InAddr) : List UInt8 := dotted addr.a addr.b addr.c addr.d

/-- `ai_addr`; the port is 0. -/
inductive SockAddr
  | inet (sinAddr : InAddr)
  | inet6 (flowinfo : InAddr) (sin6Addr : List UInt8)

/-- `((struct sockaddr_in*)ai_addr)->sin_addr`: in a `struct sockaddr_in6` the flow information is
in the same place. -/
def SockAddr.sinAddr : SockAddr → InAddr
  | .inet sinAddr => sinAddr
  | .inet6 flowinfo _ => flowinfo

/-- What `dst_server_ip` and `dst_ip` point to; `none` is `NULL`. -/
structure Outputs where
  dstServerIp : Option (List UInt8)
  dstIp : Option InAddr

/-- `(c < '0' || c > '9') && c != '.'` -/
def NotLiteral (c : UInt8) : Prop := (c < Char.toUInt8 '0' ∨ c > Char.toUInt8 '9') ∧ c ≠ dot

instance (c : UInt8) : Decidable (NotLiteral c) :=
  inferInstanceAs (Decidable ((c < Char.toUInt8 '0' ∨ c > Char.toUInt8 '9') ∧ c ≠ dot))

/-- The length is converted to `int`. -/
def checkIpOrDomain : Option (List UInt8) → ℤ
  | none => -1
  | some srcServer =>
    let len := (srcServer.length : ℤ).bmod (2 ^ 32)
    if len ≤ 0 then -1
    else if ∃ c ∈ srcServer.take len.toNat, NotLiteral c then 1
    else 0

/-- `if(dst_server_ip != NULL) strncpy(dst_server_ip, text, n);` -/
def copyText (text : List UInt8) (n : ℕ) : Cmd Outputs Unit := do
  match (← get).dstServerIp with
  | none => return
  | some block =>
    let block ← store block 0 (strncpy text n)
    modify fun s ↦ { s with dstServerIp := some block }

/-- The branch of an address literal. -/
def copyLiteral (inetAton : List UInt8 → Option InAddr) (srcServer : List UInt8) :
    Cmd Outputs ℤ := do
  copyText srcServer 15
  if (← get).dstIp.isNone then
    return 0
  else
    match inetAton srcServer with
    | none => return -1
    | some addr =>
      modify fun s ↦ { s with dstIp := some addr }
      return 0

/-- What follows `getaddrinfo`, which answered nothing unless it returned 0. -/
def copyAnswer (answer : Option (List SockAddr)) : Cmd Outputs ℤ := do
  match answer with
  | some (first :: _) =>
    modify fun s ↦ { s with dstIp := s.dstIp.map fun _ ↦ first.sinAddr }
    copyText (inetNtoa first.sinAddr) 19
    return 0
  | _ => return -1

/-- `zbaselib_socket_getipbyname` -/
def getipbyname (inetAton : List UInt8 → Option InAddr) (answer : Option (List SockAddr))
    (srcServer : Option (List UInt8)) : Cmd Outputs ℤ := do
  let isIp := checkIpOrDomain srcServer
  if isIp < 0 then
    return -1
  else
    let srcServer ← srcServer
    if isIp = 0 then
      copyLiteral inetAton srcServer
    else
      copyAnswer answer

/-! ## What it is to do -/

section

variable (inetAton : List UInt8 → Option InAddr) (answer : Option (List SockAddr))
  (srcServer : Option (List UInt8))

/-- An address of what was looked up. -/
def Denotes (addr : InAddr) : Prop :=
  checkIpOrDomain srcServer = 0 ∧ srcServer.bind inetAton = some addr ∨
    checkIpOrDomain srcServer = 1 ∧ ∃ entries, answer = some entries ∧ SockAddr.inet addr ∈ entries

/-- What a call says through the outputs that are not `NULL`. -/
structure Tells (before : Outputs) (ret : ℤ) (after : Outputs) : Prop where
  code : ret = 0 ∨ ret = -1
  address : ret = 0 → ∃ addr, Denotes inetAton answer srcServer addr ∧
    after.dstIp = before.dstIp.map (fun _ ↦ addr) ∧
    after.dstServerIp.bind cstring = before.dstServerIp.map fun _ ↦ inetNtoa addr
  unchanged : ret = -1 → after = before

/-- The four ways to pass `NULL`. -/
def calls (block : List UInt8) (old : InAddr) : List Outputs :=
  [⟨none, none⟩, ⟨none, some old⟩, ⟨some block, none⟩, ⟨some block, some old⟩]

/-- The calls return the same, and tell the truth. -/
def Finds (block : List UInt8) (old : InAddr) : Prop :=
  ∃ ret, ∀ before ∈ calls block old, wp (getipbyname inetAton answer srcServer)
    (fun ret' after ↦ ret' = ret ∧ Tells inetAton answer srcServer before ret' after) before

end

/-! ## When it does -/

/-- The first 15 characters are the dotted text of the address that is read from the literal, and
a NUL comes after them. -/
def LiteralFits (inetAton : List UInt8 → Option InAddr) (srcServer block : List UInt8) : Prop :=
  ∃ addr, inetAton srcServer = some addr ∧ srcServer.take 15 = inetNtoa addr ∧
    15 ≤ block.length ∧ (srcServer.length < 15 ∨ block[15]? = some 0)

/-- What is read from the first entry is one of the addresses. -/
def AnswerFits (answer : Option (List SockAddr)) (block : List UInt8) : Prop :=
  ∀ first rest, answer = some (first :: rest) →
    19 ≤ block.length ∧ SockAddr.inet first.sinAddr ∈ first :: rest

section

variable {inetAton : List UInt8 → Option InAddr} {answer : Option (List SockAddr)}
  {srcServer : Option (List UInt8)} {src text block : List UInt8} {old addr : InAddr} {n : ℕ}
  {s : Outputs}

/-! ## The copied text -/

theorem length_inetNtoa (addr : InAddr) : (inetNtoa addr).length ≤ 15 :=
  (iPv4_dotted addr.a addr.b addr.c addr.d).length_le

theorem zero_notMem_inetNtoa (addr : InAddr) : 0 ∉ inetNtoa addr := zero_notMem_dotted _ _ _ _

theorem strncpy_eq_rightpad (hsrc : 0 ∉ src) (n : ℕ) :
    strncpy src n = (src.take n).rightpad n 0 := by
  unfold strncpy
  rw [takeWhile_ne hsrc]

theorem length_strncpy (src : List UInt8) (n : ℕ) : (strncpy src n).length = n := by
  simp [strncpy, List.rightpad]

/-- The string after `strncpy(dst, src, n)`. -/
theorem cstring_strncpy (hsrc : 0 ∉ src) (block : List UInt8) :
    cstring (strncpy src n ++ block.drop n) =
      if src.length < n then some src
      else (cstring (block.drop n)).map (src.take n ++ ·) := by
  rw [strncpy_eq_rightpad hsrc]
  unfold List.rightpad
  by_cases hshort : src.length < n
  · have hpadding : List.replicate (n - src.length) (0 : UInt8) =
        0 :: List.replicate (n - src.length - 1) 0 := by
      rw [← List.replicate_succ, Nat.sub_add_cancel (by omega)]
    rw [if_pos hshort, List.take_of_length_le hshort.le, hpadding]
    calc
      _ = cstring (src ++ 0 :: (List.replicate (n - src.length - 1) 0 ++ block.drop n)) := by
        rw [List.append_assoc, List.cons_append]
      _ = some src := cstring_append hsrc _
  · have hfull : n - (src.take n).length = 0 := by
      rw [List.length_take, Nat.min_eq_left (Nat.not_lt.1 hshort), Nat.sub_self]
    rw [if_neg hshort, hfull]
    calc
      _ = cstring (src.take n ++ block.drop n) := by rw [List.replicate_zero, List.append_nil]
      _ = (cstring (block.drop n)).map (src.take n ++ ·) :=
        cstring_append_of_notMem (fun hzero ↦ hsrc (List.mem_of_mem_take hzero)) _

/-- A short text is what was copied only if a NUL comes after it. -/
theorem cstring_strncpy_eq_some (hsrc : 0 ∉ src) (htext : text.length ≤ n) :
    cstring (strncpy src n ++ block.drop n) = some text ↔
      src.take n = text ∧ (src.length < n ∨ block[n]? = some 0) := by
  rw [cstring_strncpy hsrc]
  by_cases hshort : src.length < n
  · rw [if_pos hshort, Option.some_inj, List.take_of_length_le hshort.le]
    exact ⟨fun h ↦ ⟨h, Or.inl hshort⟩, fun h ↦ h.1⟩
  · rw [if_neg hshort, or_iff_right hshort, Option.map_eq_some_iff]
    have htake : (src.take n).length = n := by
      rw [List.length_take, Nat.min_eq_left (Nat.not_lt.1 hshort)]
    have hend : block[n]? = some 0 ↔ cstring (block.drop n) = some [] := by
      rw [cstring_eq_nil, List.head?_drop]
    rw [hend]
    constructor
    · rintro ⟨rest, hrest, rfl⟩
      rw [List.length_append, htake] at htext
      have hnil : rest = [] := List.length_eq_zero_iff.1 (by omega)
      rw [hnil] at hrest ⊢
      exact ⟨(List.append_nil _).symm, hrest⟩
    · rintro ⟨htake, hrest⟩
      exact ⟨[], hrest, by rw [htake, List.append_nil]⟩

/-! ## The function by cases -/

@[simp]
theorem wp_copyText (post : Unit → Outputs → Prop) : wp (copyText text n) post s ↔
    (∀ block, s.dstServerIp = some block → n ≤ block.length) ∧
      post () { s with
        dstServerIp := s.dstServerIp.map fun block ↦ strncpy text n ++ block.drop n } := by
  obtain ⟨dstServerIp, dstIp⟩ := s
  cases dstServerIp with
  | none => simp [copyText]
  | some block =>
    by_cases hroom : n ≤ block.length
    · simp [copyText, store, length_strncpy, hroom, splice_zero]
    · simp [copyText, store, length_strncpy, hroom]

theorem wp_getipbyname_neg (post : ℤ → Outputs → Prop) (h : checkIpOrDomain srcServer < 0) :
    wp (getipbyname inetAton answer srcServer) post s ↔ post (-1) s := by
  unfold getipbyname
  simp [h]

theorem wp_getipbyname_literal (post : ℤ → Outputs → Prop)
    (h : checkIpOrDomain (some src) = 0) :
    wp (getipbyname inetAton answer (some src)) post s ↔
      wp (copyLiteral inetAton src) post s := by
  unfold getipbyname
  simp [h]

theorem wp_getipbyname_name (post : ℤ → Outputs → Prop) (h : checkIpOrDomain (some src) = 1) :
    wp (getipbyname inetAton answer (some src)) post s ↔ wp (copyAnswer answer) post s := by
  unfold getipbyname
  simp [h]

theorem wp_copyLiteral_some (post : ℤ → Outputs → Prop) (haton : inetAton src = some addr) :
    wp (copyLiteral inetAton src) post s ↔
      (∀ block, s.dstServerIp = some block → 15 ≤ block.length) ∧
        post 0
          { dstServerIp := s.dstServerIp.map fun block ↦ strncpy src 15 ++ block.drop 15
            dstIp := s.dstIp.map fun _ ↦ addr } := by
  obtain ⟨dstServerIp, dstIp⟩ := s
  unfold copyLiteral
  cases dstIp <;> simp [haton]

/-- Only a caller that wants the number learns that there is none. -/
theorem wp_copyLiteral_none (post : ℤ → Outputs → Prop) (haton : inetAton src = none) :
    wp (copyLiteral inetAton src) post s ↔
      (∀ block, s.dstServerIp = some block → 15 ≤ block.length) ∧
        post (if s.dstIp = none then 0 else -1)
          { s with
            dstServerIp := s.dstServerIp.map fun block ↦ strncpy src 15 ++ block.drop 15 } := by
  obtain ⟨dstServerIp, dstIp⟩ := s
  unfold copyLiteral
  cases dstIp <;> simp [haton]

theorem wp_copyAnswer (post : ℤ → Outputs → Prop) (first : SockAddr) (rest : List SockAddr) :
    wp (copyAnswer (some (first :: rest))) post s ↔
      (∀ block, s.dstServerIp = some block → 19 ≤ block.length) ∧
        post 0
          { dstServerIp := s.dstServerIp.map fun block ↦
              strncpy (inetNtoa first.sinAddr) 19 ++ block.drop 19
            dstIp := s.dstIp.map fun _ ↦ first.sinAddr } := by
  simp [copyAnswer]

theorem wp_copyAnswer_none (post : ℤ → Outputs → Prop)
    (h : ∀ first rest, answer ≠ some (first :: rest)) :
    wp (copyAnswer answer) post s ↔ post (-1) s := by
  unfold copyAnswer
  cases answer with
  | none => simp
  | some entries =>
    cases entries with
    | nil => simp
    | cons first rest => exact absurd rfl (h first rest)

/-! ## The calls agree -/

/-- Nothing was found, and nothing written. -/
theorem finds_refused
    (h : ∀ post s, wp (getipbyname inetAton answer srcServer) post s ↔ post (-1) s) :
    Finds inetAton answer srcServer block old :=
  ⟨-1, fun before _ ↦ (h _ before).2 ⟨rfl, Or.inr rfl, nofun, fun _ ↦ rfl⟩⟩

/-- The text of an address that is in all outputs. -/
theorem tells_found {before : Outputs} (hdenotes : Denotes inetAton answer srcServer addr)
    (htext : ∀ block, before.dstServerIp = some block →
      cstring (strncpy text n ++ block.drop n) = some (inetNtoa addr)) :
    Tells inetAton answer srcServer before 0
      { dstServerIp := before.dstServerIp.map fun block ↦ strncpy text n ++ block.drop n
        dstIp := before.dstIp.map fun _ ↦ addr } := by
  refine ⟨Or.inl rfl, fun _ ↦ ⟨addr, hdenotes, rfl, ?_⟩, nofun⟩
  cases hserver : before.dstServerIp with
  | none => rfl
  | some block => simpa using htext block hserver

/-- Which blocks the calls write to. -/
theorem dstServerIp_of_mem_calls {before : Outputs} (h : before ∈ calls block old) :
    ∀ block', before.dstServerIp = some block' → block' = block := by
  simp only [calls, List.mem_cons, List.not_mem_nil, or_false] at h
  obtain rfl | rfl | rfl | rfl := h <;> simp

theorem finds_literal (h : checkIpOrDomain (some src) = 0) (hsrc : 0 ∉ src) :
    Finds inetAton answer (some src) block old ↔ LiteralFits inetAton src block := by
  have hdenotes (addr : InAddr) :
      Denotes inetAton answer (some src) addr ↔ inetAton src = some addr := by
    simp [Denotes, h]
  unfold Finds
  simp only [wp_getipbyname_literal _ h]
  constructor
  · rintro ⟨ret, hcalls⟩
    have hneither := hcalls ⟨none, none⟩ (by simp [calls])
    have hboth := hcalls ⟨some block, some old⟩ (by simp [calls])
    cases haton : inetAton src with
    | none =>
      rw [wp_copyLiteral_none _ haton] at hneither hboth
      have hzero : 0 = ret := hneither.2.1
      have hone : -1 = ret := hboth.2.1
      exact absurd (hone.trans hzero.symm) (by decide)
    | some addr =>
      rw [wp_copyLiteral_some _ haton] at hboth
      obtain ⟨hroom, -, htells⟩ := hboth
      obtain ⟨addr', haddr', -, htext⟩ := htells.address rfl
      obtain ⟨htake, hend⟩ :=
        (cstring_strncpy_eq_some (n := 15) hsrc (length_inetNtoa addr')).1 htext
      exact ⟨addr', (hdenotes addr').1 haddr', htake, hroom block rfl, hend⟩
  · rintro ⟨addr, haton, htake, hroom, hend⟩
    refine ⟨0, fun before hbefore ↦ ?_⟩
    have hblock := dstServerIp_of_mem_calls hbefore
    rw [wp_copyLiteral_some _ haton]
    refine ⟨fun block' hblock' ↦ by rwa [hblock block' hblock'], rfl,
      tells_found ((hdenotes addr).2 haton) fun block' hblock' ↦ ?_⟩
    rw [hblock block' hblock']
    exact (cstring_strncpy_eq_some hsrc (length_inetNtoa addr)).2 ⟨htake, hend⟩

theorem finds_answer (h : checkIpOrDomain (some src) = 1) :
    Finds inetAton answer (some src) block old ↔ AnswerFits answer block := by
  by_cases hnone : ∀ first rest, answer ≠ some (first :: rest)
  · refine iff_of_true (finds_refused fun post s ↦ ?_) fun first rest heq ↦
      absurd heq (hnone first rest)
    rw [wp_getipbyname_name _ h, wp_copyAnswer_none _ hnone]
  · push Not at hnone
    obtain ⟨first, rest, rfl⟩ := hnone
    have hdenotes (addr : InAddr) : Denotes inetAton (some (first :: rest)) (some src) addr ↔
        SockAddr.inet addr ∈ first :: rest := by
      simp [Denotes, h]
    unfold Finds
    simp only [wp_getipbyname_name _ h, wp_copyAnswer]
    constructor
    · rintro ⟨ret, hcalls⟩ first' rest' heq
      cases heq
      obtain ⟨hroom, -, htells⟩ := hcalls ⟨some block, some old⟩ (by simp [calls])
      obtain ⟨addr, haddr, hip, -⟩ := htells.address rfl
      have heq : first.sinAddr = addr := Option.some_inj.1 hip
      rw [hdenotes, ← heq] at haddr
      exact ⟨hroom block rfl, haddr⟩
    · intro hfits
      obtain ⟨hroom, hmem⟩ := hfits first rest rfl
      refine ⟨0, fun before hbefore ↦ ?_⟩
      have hblock := dstServerIp_of_mem_calls hbefore
      refine ⟨fun block' hblock' ↦ by rwa [hblock block' hblock'], rfl,
        tells_found ((hdenotes _).2 hmem) fun block' _ ↦ ?_⟩
      have hlength := length_inetNtoa first.sinAddr
      rw [cstring_strncpy_eq_some (zero_notMem_inetNtoa _) (by omega)]
      exact ⟨List.take_of_length_le (by omega), Or.inl (by omega)⟩

theorem checkIpOrDomain_some (src : List UInt8) : checkIpOrDomain (some src) = -1 ∨
    checkIpOrDomain (some src) = 0 ∨ checkIpOrDomain (some src) = 1 := by
  unfold checkIpOrDomain
  dsimp only
  split_ifs
  · exact Or.inl rfl
  · exact Or.inr (Or.inr rfl)
  · exact Or.inr (Or.inl rfl)

/-- The three outcomes of the check. -/
theorem checkIpOrDomain_cases (srcServer : Option (List UInt8)) :
    checkIpOrDomain srcServer < 0 ∨
      ∃ src, srcServer = some src ∧
        (checkIpOrDomain (some src) = 0 ∨ checkIpOrDomain (some src) = 1) := by
  cases srcServer with
  | none => exact Or.inl (by decide)
  | some src =>
    obtain hneg | hname := checkIpOrDomain_some src
    · refine Or.inl ?_
      rw [hneg]
      decide
    · exact Or.inr ⟨src, rfl, hname⟩

end

/-! ## Dotted literals -/

theorem not_notLiteral_of_digit {c : UInt8} {d : ℕ} (h : Numeral.digit 10 c = some d) :
    ¬NotLiteral c := by
  have hall : ∀ n < 256, Numeral.digit 10 (UInt8.ofNat n) = none ∨ ¬NotLiteral (UInt8.ofNat n) := by
    decide +kernel
  have hc := hall c.toNat c.toNat_lt
  rw [UInt8.ofNat_toNat, h] at hc
  exact hc.resolve_left (Option.some_ne_none d)

/-- The text form of an IPv4 address passes for a literal. -/
theorem checkIpOrDomain_of_iPv4 {t bytes : List UInt8} (h : IPv4 t bytes) :
    checkIpOrDomain (some t) = 0 := by
  have hle := h.length_le
  have hpos : 0 < t.length := by
    rw [List.length_pos_iff]
    rintro rfl
    exact not_octets_nil h.1
  have hlen : (t.length : ℤ).bmod (2 ^ 32) = t.length := by
    rw [Int.bmod_eq_of_le] <;> omega
  have hliteral : ¬∃ c ∈ t.take (t.length : ℤ).toNat, NotLiteral c := by
    rintro ⟨c, hc, hno⟩
    rcases h.1.digit_or_dot c (List.mem_of_mem_take hc) with hdot | ⟨d, hd⟩
    · exact hno.2 hdot
    · exact not_notLiteral_of_digit hd hno
  have hnot : ¬((t.length : ℤ) ≤ 0) := by omega
  unfold checkIpOrDomain
  dsimp only
  rw [hlen, if_neg hnot, if_neg hliteral]

/-- A dotted address is always found, if there is a NUL behind the longest ones. -/
theorem finds_dotted {inetAton : List UInt8 → Option InAddr} {answer : Option (List SockAddr)}
    {block : List UInt8} {old addr : InAddr} (haton : inetAton (inetNtoa addr) = some addr)
    (hroom : 15 ≤ block.length) (hend : (inetNtoa addr).length < 15 ∨ block[15]? = some 0) :
    Finds inetAton answer (some (inetNtoa addr)) block old := by
  have hcheck := checkIpOrDomain_of_iPv4 (iPv4_dotted addr.a addr.b addr.c addr.d)
  refine (finds_literal hcheck (zero_notMem_inetNtoa addr)).2 ⟨addr, haton, ?_, hroom, hend⟩
  exact List.take_of_length_le (length_inetNtoa addr)

/-- **The calls return the same and tell the truth exactly when there is nothing to look up, a
literal is the dotted text of its address, or the first entry of the answer is read as an address
of it.** -/
theorem finds_iff {inetAton : List UInt8 → Option InAddr} {answer : Option (List SockAddr)}
    {srcServer : Option (List UInt8)} {block : List UInt8} {old : InAddr}
    (hzero : ∀ src, srcServer = some src → 0 ∉ src) :
    Finds inetAton answer srcServer block old ↔
      checkIpOrDomain srcServer < 0 ∨
        ∃ src, srcServer = some src ∧
          (checkIpOrDomain srcServer = 0 ∧ LiteralFits inetAton src block ∨
            checkIpOrDomain srcServer = 1 ∧ AnswerFits answer block) := by
  obtain hneg | ⟨src, rfl, hliteral | hname⟩ := checkIpOrDomain_cases srcServer
  · exact iff_of_true (finds_refused fun post s ↦ wp_getipbyname_neg post hneg) (Or.inl hneg)
  · rw [finds_literal hliteral (hzero src rfl)]
    simp [hliteral]
  · rw [finds_answer hname]
    simp [hname]

/-- `inet_aton` where it is used below. -/
def atonLocal (src : List UInt8) : Option InAddr :=
  if src = inetNtoa ⟨127, 0, 0, 1⟩ then some ⟨127, 0, 0, 1⟩ else none

/-- `127.0.0.1`, and a block of 16 characters. -/
theorem finds_iff_local :
    Finds atonLocal none (some (inetNtoa ⟨127, 0, 0, 1⟩)) (List.replicate 16 1) ⟨0, 0, 0, 0⟩ := by
  refine (finds_iff fun src hsrc ↦ ?_).2 (Or.inr ⟨_, rfl, Or.inl ⟨by decide, ?_⟩⟩)
  · rw [← Option.some_inj.1 hsrc]
    exact zero_notMem_inetNtoa _
  · exact ⟨⟨127, 0, 0, 1⟩, by decide, by decide, by decide, Or.inl (by decide)⟩

/-- `999.1.1.1` -/
theorem not_finds_large :
    ¬Finds atonLocal none (some ([ '9', '9', '9', '.', '1', '.', '1', '.', '1'].map Char.toUInt8))
      (List.replicate 16 1) ⟨0, 0, 0, 0⟩ := by
  rw [finds_literal (by decide) (by decide)]
  rintro ⟨addr, haton, -⟩
  exact nomatch haton

end Zbaselib.Inet
