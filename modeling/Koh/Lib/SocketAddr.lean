import Koh.Lib.Digits
import Mathlib.Data.List.Nodup

/-!
# Socket addresses in a text

The addresses of sockets, as a standard library prints and reads them: an IPv6 address is
printed with its longest run of zeros left out, or as the IPv4 address it maps.

## Main definitions

- `SocketAddr`: an address, and its port
- `SocketAddr.text`: how it is printed
- `SocketAddr.parse`: how it is read

## Main results

- `SocketAddr.parse_text`: an address printed is read back
- `SocketAddr.inAddr`: what a printed address is made of

## Design notes

An address has no flow information: none is printed, and one that is read has none.
-/

namespace Koh.Lib

structure Ipv4Addr where
  a : UInt8
  b : UInt8
  c : UInt8
  d : UInt8
  deriving DecidableEq

structure Ipv6Addr where
  segments : List UInt16
  length : segments.length = 8
  deriving DecidableEq

inductive SocketAddr where
  | v4 (ip : Ipv4Addr) (port : UInt16)
  | v6 (ip : Ipv6Addr) (scopeId : UInt32) (port : UInt16)
  deriving DecidableEq

/-! ### Printing -/

def decimal (n : ℕ) : List Char := Nat.toDigits 10 n

def hex (segment : UInt16) : List Char := Nat.toDigits 16 segment.toNat

def Ipv4Addr.text (ip : Ipv4Addr) : List Char :=
  decimal ip.a.toNat ++ '.' :: (decimal ip.b.toNat ++ '.' :: (decimal ip.c.toNat ++
    '.' :: decimal ip.d.toNat))

/-- The two bytes of a group, the high one first. -/
def bytesOf (segment : UInt16) : UInt8 × UInt8 :=
  (UInt8.ofNat (segment.toNat / 256), UInt8.ofNat (segment.toNat % 256))

def segmentOf (high low : UInt8) : UInt16 := UInt16.ofNat (high.toNat * 256 + low.toNat)

/-- The IPv4 address that an IPv6 address maps. -/
def Ipv6Addr.toIpv4Mapped (ip : Ipv6Addr) : Option Ipv4Addr :=
  match ip.segments with
  | [0, 0, 0, 0, 0, 0xffff, ab, cd] =>
    some ⟨(bytesOf ab).1, (bytesOf ab).2, (bytesOf cd).1, (bytesOf cd).2⟩
  | _ => none

structure Span where
  start : ℕ
  len : ℕ
  deriving DecidableEq

/-- What the search for the longest run of zeros has, after some groups. -/
structure Zeros where
  longest : Span
  current : Span
  deriving DecidableEq

namespace Zeros

def none : Zeros := ⟨⟨0, 0⟩, ⟨0, 0⟩⟩

def look (z : Zeros) (i : ℕ) (segment : UInt16) : Zeros :=
  if segment = 0 then
    let current : Span := ⟨if z.current.len = 0 then i else z.current.start, z.current.len + 1⟩
    ⟨if z.longest.len < current.len then current else z.longest, current⟩
  else ⟨z.longest, ⟨0, 0⟩⟩

end Zeros

/-- The search, from group `i` on. -/
def zerosFrom (z : Zeros) : ℕ → List UInt16 → Zeros
  | _, [] => z
  | i, segment :: rest => zerosFrom (z.look i segment) (i + 1) rest

def longestZeros (segments : List UInt16) : Span := (zerosFrom .none 0 segments).longest

/-- Each group after a colon. -/
def coloned (segments : List UInt16) : List Char := segments.flatMap fun s => ':' :: hex s

/-- Groups, with colons between them. -/
def fmtSubslice : List UInt16 → List Char
  | [] => []
  | first :: tail => hex first ++ coloned tail

def Ipv6Addr.text (ip : Ipv6Addr) : List Char :=
  match ip.toIpv4Mapped with
  | some ipv4 => [':', ':', 'f', 'f', 'f', 'f', ':'] ++ ipv4.text
  | none =>
    let zeros := longestZeros ip.segments
    if 1 < zeros.len then
      fmtSubslice (ip.segments.take zeros.start) ++ ':' :: ':' ::
        fmtSubslice (ip.segments.drop (zeros.start + zeros.len))
    else fmtSubslice ip.segments

def SocketAddr.text : SocketAddr → List Char
  | .v4 ip port => ip.text ++ ':' :: decimal port.toNat
  | .v6 ip scopeId port =>
    if scopeId = 0 then '[' :: (ip.text ++ ']' :: ':' :: decimal port.toNat)
    else '[' :: (ip.text ++ '%' :: (decimal scopeId.toNat ++ ']' :: ':' :: decimal port.toNat))

/-! ### Reading -/

def readOctet : Scan UInt8 := do
  let n ← number 10 (some 3) false (2 ^ 8)
  pure (UInt8.ofNat n)

def readIpv4 : Scan Ipv4Addr := do
  let a ← readOctet
  given '.'
  let b ← readOctet
  given '.'
  let c ← readOctet
  given '.'
  let d ← readOctet
  pure ⟨a, b, c, d⟩

def readGroup : Scan UInt16 := do
  let n ← number 16 (some 4) true (2 ^ 16)
  pure (UInt16.ofNat n)

/-- What is read after a colon, unless it is the first. -/
def readSeparated {α : Type} (first : Bool) (inner : Scan α) : Scan α := do
  if first then inner
  else do
    given ':'
    inner

/-- Groups, as many as there are and at most so many; and whether an IPv4 address ends them. -/
def readGroups : (limit : ℕ) → Bool → List Char →
    {groups : List UInt16 // groups.length ≤ limit} × Bool × List Char
  | 0, _, text => (⟨[], Nat.zero_le _⟩, false, text)
  | 1, first, text =>
    match readSeparated first readGroup text with
    | some (group, rest) => (⟨[group], Nat.le_refl _⟩, false, rest)
    | none => (⟨[], Nat.zero_le _⟩, false, text)
  | limit + 2, first, text =>
    match readSeparated first readIpv4 text with
    | some (ip, rest) =>
      (⟨[segmentOf ip.a ip.b, segmentOf ip.c ip.d], Nat.le_add_left 2 limit⟩, true, rest)
    | none =>
      match readSeparated first readGroup text with
      | some (group, rest) =>
        let (groups, ipv4, rest) := readGroups (limit + 1) false rest
        (⟨group :: groups.1, Nat.succ_le_succ groups.2⟩, ipv4, rest)
      | none => (⟨[], Nat.zero_le _⟩, false, text)

/-- The groups before and after those left out, and as many zeros between as are left. -/
def filled (head tail : List UInt16) : List UInt16 :=
  head ++ (List.replicate (8 - head.length - tail.length) 0 ++ tail)

/-- The zeros fill what is left of the eight. -/
theorem length_filled {head tail : List UInt16} (h : head.length + tail.length ≤ 8) :
    (filled head tail).length = 8 := by
  simp only [filled, List.length_append, List.length_replicate]
  omega

def readIpv6 : Scan Ipv6Addr := fun text =>
  let (head, ipv4, rest) := readGroups 8 true text
  if h : head.1.length = 8 then some (⟨head.1, h⟩, rest)
  -- An IPv4 address is at the end, or nowhere.
  else if ipv4 then none
  else (given ':' rest).bind fun ((), rest) => (given ':' rest).bind fun ((), rest) =>
    let (tail, _, rest) := readGroups (8 - (head.1.length + 1)) true rest
    some (⟨filled head.1 tail.1, length_filled (by have := head.2; have := tail.2; omega)⟩, rest)

def readPort : Scan UInt16 := do
  given ':'
  let n ← number 10 none true (2 ^ 16)
  pure (UInt16.ofNat n)

def readScopeId : Scan UInt32 := do
  given '%'
  let n ← number 10 none true (2 ^ 32)
  pure (UInt32.ofNat n)

def readSocketAddrV4 : Scan SocketAddr := do
  let ip ← readIpv4
  let port ← readPort
  pure (.v4 ip port)

def readSocketAddrV6 : Scan SocketAddr := do
  given '['
  let ip ← readIpv6
  let scopeId ← readScopeId <|> pure 0
  given ']'
  let port ← readPort
  pure (.v6 ip scopeId port)

/-- `SocketAddr::from_str`: nothing may be left of the text. -/
def SocketAddr.parse (text : List Char) : Option SocketAddr :=
  match (readSocketAddrV4 <|> readSocketAddrV6).run text with
  | some (addr, []) => some addr
  | _ => none

/-! ### IPv4 -/

variable {rest text : List Char}

/-- A segment is its two bytes. -/
theorem segmentOf_bytesOf (segment : UInt16) :
    segmentOf (bytesOf segment).1 (bytesOf segment).2 = segment := by
  have hlt := segment.toNat_lt
  have hhigh : segment.toNat / 256 < 2 ^ 8 := by omega
  have hlow : segment.toNat % 256 < 2 ^ 8 := by omega
  rw [segmentOf, bytesOf, UInt8.toNat_ofNat_of_lt' hhigh, UInt8.toNat_ofNat_of_lt' hlow,
    Nat.div_add_mod', UInt16.ofNat_toNat]

/-- What begins with no digit. -/
theorem undigit_cons {radix : ℕ} {c : Char} (h : isDigitOf radix c = false) :
    Undigit radix (c :: rest) := by
  rintro x ⟨⟩
  exact h

/-- An octet's decimal is read back. -/
theorem readOctet_decimal (x : UInt8) (hrest : Undigit 10 rest) :
    readOctet (decimal x.toNat ++ rest) = some (x, rest) := by
  have hnumber : number 10 (some 3) false (2 ^ 8) (decimal x.toNat ++ rest)
      = some (x.toNat, rest) :=
    number_toDigits (by decide) (by decide) x.toNat_lt
      (by rintro m ⟨⟩; have := x.toNat_lt; omega) hrest
  rw [readOctet, scan_bind hnumber, UInt8.ofNat_toNat]
  rfl

/-- An IPv4 address's text is read back. -/
theorem readIpv4_text (ip : Ipv4Addr) (hrest : Undigit 10 rest) :
    readIpv4 (ip.text ++ rest) = some (ip, rest) := by
  have hdot : ∀ rest, Undigit 10 ('.' :: rest) := fun _ => undigit_cons (by decide)
  simp only [Ipv4Addr.text, List.append_assoc, List.cons_append]
  rw [readIpv4, scan_bind (readOctet_decimal ip.a (hdot _)), scan_bind given_cons,
    scan_bind (readOctet_decimal ip.b (hdot _)), scan_bind given_cons,
    scan_bind (readOctet_decimal ip.c (hdot _)), scan_bind given_cons,
    scan_bind (readOctet_decimal ip.d hrest)]
  rfl

/-- A character that is not there is not given. -/
theorem given_of_notMem {c : Char} (h : c ∉ text) : given c text = none := by
  cases text with
  | nil => rfl
  | cons x rest => exact given_ne fun hx => h (by rw [hx]; exact List.mem_cons_self)

/-- An IPv4 address has a dot. -/
theorem readIpv4_eq_none (h : '.' ∉ text) : readIpv4 text = none := by
  rw [readIpv4]
  cases hoctet : readOctet text with
  | none => exact scan_bind_none hoctet
  | some r =>
    obtain ⟨x, left⟩ := r
    obtain ⟨n, rest, hnumber, hpure⟩ := scan_bind_some hoctet
    cases hpure
    have hleft : '.' ∉ left := fun hmem => h ((suffix_of_number hnumber).subset hmem)
    rw [scan_bind hoctet, scan_bind_none (given_of_notMem hleft)]

/-! ### Groups -/

/-- A group's hexadecimal is read back. -/
theorem readGroup_hex (segment : UInt16) (hrest : Undigit 16 rest) :
    readGroup (hex segment ++ rest) = some (segment, rest) := by
  have hnumber : number 16 (some 4) true (2 ^ 16) (hex segment ++ rest)
      = some (segment.toNat, rest) :=
    number_toDigits (by decide) (by decide) segment.toNat_lt
      (by rintro m ⟨⟩; have := segment.toNat_lt; omega) hrest
  rw [readGroup, scan_bind hnumber, UInt16.ofNat_toNat]
  rfl

/-- There is no group with no digit. -/
theorem readGroup_eq_none (h : Undigit 16 rest) : readGroup rest = none :=
  scan_bind_none (number_eq_none h)

/-- What `readGroups` reads. -/
structure Groups (limit : ℕ) (first : Bool) (text : List Char) (groups : List UInt16)
    (ipv4 : Bool) (rest : List Char) : Prop where
  groups : (readGroups limit first text).1.1 = groups
  ipv4 : (readGroups limit first text).2.1 = ipv4
  rest : (readGroups limit first text).2.2 = rest

namespace Groups

variable {limit : ℕ} {first ipv4 : Bool} {groups head tail : List UInt16} {group : UInt16}
  {text rest left : List Char}

/-- No group begins the text. -/
theorem stop (hipv4 : readSeparated first readIpv4 text = none)
    (hgroup : readSeparated first readGroup text = none) :
    Groups limit first text [] false text := by
  match limit with
  | 0 => exact ⟨rfl, rfl, rfl⟩
  | 1 => constructor <;> simp only [readGroups, hgroup]
  | limit + 2 => constructor <;> simp only [readGroups, hipv4, hgroup]

/-- A group, and those after it. -/
theorem cons (hipv4 : readSeparated first readIpv4 text = none)
    (hgroup : readSeparated first readGroup text = some (group, left))
    (h : Groups limit false left groups ipv4 rest) :
    Groups (limit + 1) first text (group :: groups) ipv4 rest := by
  obtain ⟨rfl, rfl, rfl⟩ := h
  match limit with
  | 0 => constructor <;> simp only [readGroups, hgroup]
  | limit + 1 => constructor <;> simp only [readGroups, hipv4, hgroup]

/-- An IPv4 address is two groups, and the last. -/
theorem ipv4_end {ip : Ipv4Addr} (h : readSeparated first readIpv4 text = some (ip, rest)) :
    Groups (limit + 2) first text [segmentOf ip.a ip.b, segmentOf ip.c ip.d] true rest := by
  constructor <;> simp only [readGroups, h]

end Groups

theorem readSeparated_first {α : Type} (inner : Scan α) : readSeparated true inner = inner := rfl

theorem readSeparated_colon {α : Type} (inner : Scan α) :
    readSeparated false inner (':' :: rest) = inner rest :=
  scan_bind given_cons

theorem readSeparated_ne {α : Type} {c : Char} (inner : Scan α) (h : c ≠ ':') :
    readSeparated false inner (c :: rest) = none :=
  scan_bind_none (given_ne h)

/-- Where groups end: no digit comes next, nor a colon and a digit; and no dot comes at all. -/
structure Closes (text : List Char) : Prop where
  undigit : Undigit 16 text
  apart : ∀ rest, text = ':' :: rest → Undigit 16 rest
  dotless : '.' ∉ text

theorem dot_notMem_hex (segment : UInt16) : '.' ∉ hex segment := by
  intro h
  have hdigit := isDigitOf_of_mem_toDigits (by decide) (by decide) h
  revert hdigit
  decide

theorem dot_notMem_coloned (groups : List UInt16) : '.' ∉ coloned groups := by
  intro h
  obtain ⟨s, -, hs⟩ := List.mem_flatMap.mp h
  rcases List.mem_cons.mp hs with hcolon | hhex
  · cases hcolon
  · exact dot_notMem_hex s hhex

/-- Groups are written with no dot. -/
theorem dot_notMem_fmtSubslice (groups : List UInt16) : '.' ∉ fmtSubslice groups := by
  cases groups with
  | nil => exact List.not_mem_nil
  | cons first tail =>
    intro h
    rcases List.mem_append.mp h with h | h
    · exact dot_notMem_hex first h
    · exact dot_notMem_coloned tail h

/-- With no dot there is no IPv4 address. -/
theorem readSeparated_ipv4_none {first : Bool} {text : List Char} (h : '.' ∉ text) :
    readSeparated first readIpv4 text = none := by
  cases first with
  | true => exact readIpv4_eq_none h
  | false =>
    cases text with
    | nil => rfl
    | cons c rest =>
      by_cases hc : c = ':'
      · subst hc
        rw [readSeparated_colon]
        exact readIpv4_eq_none fun hmem => h (List.mem_cons_of_mem _ hmem)
      · exact readSeparated_ne _ hc

/-- After a text that closes there is no group. -/
theorem Closes.group_none {text : List Char} (h : Closes text) :
    readSeparated false readGroup text = none := by
  cases text with
  | nil => rfl
  | cons c rest =>
    by_cases hc : c = ':'
    · subst hc
      rw [readSeparated_colon]
      exact readGroup_eq_none (h.apart rest rfl)
    · exact readSeparated_ne _ hc

/-- Nor is there a digit after groups before it. -/
theorem Closes.undigit_coloned {groups : List UInt16} (h : Closes rest) :
    Undigit 16 (coloned groups ++ rest) := by
  cases groups with
  | nil => exact h.undigit
  | cons s groups => exact undigit_cons (by decide)

/-- Groups after colons are read. -/
theorem groups_coloned {limit : ℕ} {groups : List UInt16} (hlimit : groups.length ≤ limit)
    (hrest : Closes rest) : Groups limit false (coloned groups ++ rest) groups false rest := by
  induction groups generalizing limit with
  | nil => exact .stop (readSeparated_ipv4_none hrest.dotless) hrest.group_none
  | cons s groups ih =>
    obtain ⟨limit, rfl⟩ : ∃ n, limit = n + 1 := ⟨limit - 1, by simp at hlimit; omega⟩
    have htext : coloned (s :: groups) ++ rest = ':' :: (hex s ++ (coloned groups ++ rest)) := by
      simp [coloned]
    have hdotless : '.' ∉ coloned (s :: groups) ++ rest := by
      rw [List.mem_append]
      exact not_or.mpr ⟨dot_notMem_coloned _, hrest.dotless⟩
    have hgroup : readSeparated false readGroup (coloned (s :: groups) ++ rest)
        = some (s, coloned groups ++ rest) := by
      rw [htext, readSeparated_colon, readGroup_hex s hrest.undigit_coloned]
    exact .cons (readSeparated_ipv4_none hdotless) hgroup (ih (by simpa using hlimit))

/-- Groups with colons between them are read. -/
theorem groups_fmtSubslice {limit : ℕ} {groups : List UInt16} (hlimit : groups.length ≤ limit)
    (hrest : Closes rest) : Groups limit true (fmtSubslice groups ++ rest) groups false rest := by
  cases groups with
  | nil =>
    exact .stop (readSeparated_ipv4_none hrest.dotless) (readGroup_eq_none hrest.undigit)
  | cons s groups =>
    obtain ⟨limit, rfl⟩ : ∃ n, limit = n + 1 := ⟨limit - 1, by simp at hlimit; omega⟩
    have hdotless : '.' ∉ fmtSubslice (s :: groups) ++ rest := by
      rw [List.mem_append]
      exact not_or.mpr ⟨dot_notMem_fmtSubslice _, hrest.dotless⟩
    have hgroup : readSeparated true readGroup (fmtSubslice (s :: groups) ++ rest)
        = some (s, coloned groups ++ rest) := by
      rw [readSeparated_first, fmtSubslice, List.append_assoc,
        readGroup_hex s hrest.undigit_coloned]
    exact .cons (readSeparated_ipv4_none hdotless) hgroup
      (groups_coloned (by simpa using hlimit) hrest)

/-! ### IPv6 -/

variable {ip : Ipv6Addr} {head tail : List UInt16} {ipv4 : Bool}

/-- All the groups are there. -/
theorem readIpv6_whole {text : List Char} (h : Groups 8 true text ip.segments ipv4 rest) :
    readIpv6 text = some (ip, rest) := by
  obtain ⟨segments, hlength⟩ := ip
  obtain ⟨hgroups, -, hrest⟩ := h
  rcases hread : readGroups 8 true text with ⟨⟨groups, hle⟩, b, left⟩
  rw [hread] at hgroups hrest
  simp only at hgroups hrest
  subst hgroups hrest
  simp only [readIpv6, hread, hlength, ↓reduceDIte]

/-- Some groups are left out. -/
theorem readIpv6_parted {text left : List Char}
    (h : Groups 8 true text head false (':' :: ':' :: left))
    (h' : Groups (8 - (head.length + 1)) true left tail ipv4 rest) (hne : head.length ≠ 8)
    (hfilled : filled head tail = ip.segments) : readIpv6 text = some (ip, rest) := by
  obtain ⟨segments, hlength⟩ := ip
  obtain ⟨hgroups, hipv4, hrest⟩ := h
  rcases hread : readGroups 8 true text with ⟨⟨groups, hle⟩, b, left'⟩
  rw [hread] at hgroups hipv4 hrest
  simp only at hgroups hipv4 hrest
  subst hgroups hipv4 hrest
  obtain ⟨htail, -, hrest'⟩ := h'
  subst htail hrest'
  simp only [readIpv6, hread, hne, ↓reduceDIte, given_cons, Option.bind_some, Bool.false_eq_true,
    ↓reduceIte, Option.some.injEq, Prod.mk.injEq, Ipv6Addr.mk.injEq]
  rw [hread]
  exact ⟨hfilled, rfl⟩

/-- What is so far of a search for the longest run of zeros. -/
structure Zeros.Sound (seen : List UInt16) (z : Zeros) : Prop where
  longest : ∃ before after, seen = before ++ List.replicate z.longest.len 0 ++ after ∧
    (z.longest.len ≠ 0 → before.length = z.longest.start)
  current : ∃ before, seen = before ++ List.replicate z.current.len 0 ∧
    (z.current.len ≠ 0 → before.length = z.current.start)

/-- One segment more. -/
theorem Zeros.Sound.look {seen : List UInt16} {z : Zeros} (h : z.Sound seen) (segment : UInt16) :
    (z.look seen.length segment).Sound (seen ++ [segment]) := by
  obtain ⟨before, after, hlongest, hstart⟩ := h.longest
  have hkept : ∃ before after, seen ++ [segment] =
      before ++ List.replicate z.longest.len 0 ++ after ∧
      (z.longest.len ≠ 0 → before.length = z.longest.start) := by
    refine ⟨before, after ++ [segment], ?_, hstart⟩
    rw [hlongest, List.append_assoc _ _ [segment]]
  rw [Zeros.look]
  split
  · next hzero =>
    obtain ⟨before', hcurrent, hstart'⟩ := h.current
    -- The run of zeros that is going on is one longer.
    have hlonger : ∃ before, seen ++ [segment] =
        before ++ List.replicate (z.current.len + 1) 0 ∧
        before.length = if z.current.len = 0 then seen.length else z.current.start := by
      refine ⟨before', ?_, ?_⟩
      · rw [hcurrent, hzero, List.append_assoc, ← List.replicate_succ']
      · split
        · next hlen => rw [hcurrent, hlen, List.replicate_zero, List.append_nil]
        · next hlen => exact hstart' hlen
    obtain ⟨before₁, hseen, hbefore⟩ := hlonger
    refine ⟨?_, before₁, hseen, fun _ => hbefore⟩
    simp only
    split
    · exact ⟨before₁, [], by rw [hseen, List.append_nil], fun _ => hbefore⟩
    · exact hkept
  · exact ⟨hkept, seen ++ [segment], by simp, fun h => absurd rfl h⟩

/-- All that are left. -/
theorem Zeros.Sound.zerosFrom {seen : List UInt16} {z : Zeros} (h : z.Sound seen)
    (segments : List UInt16) :
    (Koh.Lib.zerosFrom z seen.length segments).Sound (seen ++ segments) := by
  induction segments generalizing seen z with
  | nil =>
    rw [List.append_nil]
    exact h
  | cons s segments ih =>
    have hnext := ih (h.look s)
    rw [List.length_append, List.length_singleton, List.append_assoc] at hnext
    exact hnext

/-- The longest run of zeros is one. -/
theorem longestZeros_spec {segments : List UInt16} (h : (longestZeros segments).len ≠ 0) :
    ∃ before after, segments = before ++ List.replicate (longestZeros segments).len 0 ++ after ∧
      before.length = (longestZeros segments).start := by
  have hnone : Zeros.none.Sound [] :=
    ⟨⟨[], [], rfl, fun h => absurd rfl h⟩, ⟨[], rfl, fun h => absurd rfl h⟩⟩
  obtain ⟨before, after, hsegments, hstart⟩ := (hnone.zerosFrom segments).longest
  exact ⟨before, after, hsegments, hstart h⟩

/-- What is left of the groups fills up to all of them. -/
theorem filled_zeros {before after : List UInt16} {len : ℕ}
    (h : (before ++ List.replicate len 0 ++ after).length = 8) :
    filled before after = before ++ List.replicate len 0 ++ after := by
  have hlen : 8 - before.length - after.length = len := by
    simp only [List.length_append, List.length_replicate] at h
    omega
  rw [filled, hlen, List.append_assoc]

/-- Two colons close what is before them. -/
theorem closes_colons {left : List Char} (h : '.' ∉ left) : Closes (':' :: ':' :: left) where
  undigit := undigit_cons (by decide)
  apart := by
    rintro rest ⟨⟩
    exact undigit_cons (by decide)
  dotless := by simpa using h

/-- An address whose groups are printed, some left out. -/
theorem readIpv6_zeros {ip : Ipv6Addr} (h : 1 < (longestZeros ip.segments).len)
    (hrest : Closes rest) :
    readIpv6 (fmtSubslice (ip.segments.take (longestZeros ip.segments).start) ++ ':' :: ':' ::
      (fmtSubslice (ip.segments.drop ((longestZeros ip.segments).start +
        (longestZeros ip.segments).len)) ++ rest)) = some (ip, rest) := by
  have hsome : (longestZeros ip.segments).len ≠ 0 := by omega
  obtain ⟨before, after, hsegments, hstart⟩ := longestZeros_spec hsome
  have hlength := ip.length
  generalize hlen : (longestZeros ip.segments).len = len at *
  rw [← hstart]
  have htake : ip.segments.take before.length = before := by
    rw [hsegments, List.append_assoc, List.take_left]
  have hdrop : ip.segments.drop (before.length + len) = after := by
    have hbefore : (before ++ List.replicate len (0 : UInt16)).length = before.length + len := by
      simp
    rw [hsegments, ← hbefore, List.drop_left]
  have hcount : before.length + len + after.length = 8 := by
    rw [hsegments] at hlength
    simpa [Nat.add_assoc] using hlength
  rw [htake, hdrop]
  refine readIpv6_parted (groups_fmtSubslice (by omega) (closes_colons ?_))
    (groups_fmtSubslice (by omega) hrest) (by omega) ?_
  · rw [List.mem_append]
    exact not_or.mpr ⟨dot_notMem_fmtSubslice after, hrest.dotless⟩
  · rw [hsegments] at hlength ⊢
    exact filled_zeros hlength

/-- An address that maps an IPv4 address. -/
theorem readIpv6_mapped {ip : Ipv6Addr} {ipv4 : Ipv4Addr} (h : ip.toIpv4Mapped = some ipv4)
    (hrest : Undigit 10 rest) :
    readIpv6 ([':', ':', 'f', 'f', 'f', 'f', ':'] ++ (ipv4.text ++ rest)) = some (ip, rest) := by
  obtain ⟨segments, hlength⟩ := ip
  simp only [Ipv6Addr.toIpv4Mapped] at h
  split at h
  · next ab cd =>
    cases h
    generalize hipv4 : (⟨(bytesOf ab).1, (bytesOf ab).2, (bytesOf cd).1, (bytesOf cd).2⟩ : Ipv4Addr)
      = ipv4
    have hcolon : ∀ left, Undigit 10 (':' :: left) := fun _ => undigit_cons (by decide)
    have hstart : Groups 8 true ([':', ':', 'f', 'f', 'f', 'f', ':'] ++ (ipv4.text ++ rest)) []
        false ([':', ':', 'f', 'f', 'f', 'f', ':'] ++ (ipv4.text ++ rest)) :=
      .stop (scan_bind_none (scan_bind_none (number_eq_none (hcolon _))))
        (readGroup_eq_none (undigit_cons (by decide)))
    -- The groups left out are zero, and the last is all ones before the IPv4 address.
    have hipv4_end : Groups 6 false (':' :: (ipv4.text ++ rest))
        [segmentOf ipv4.a ipv4.b, segmentOf ipv4.c ipv4.d] true rest :=
      .ipv4_end (by rw [readSeparated_colon, readIpv4_text ipv4 hrest])
    have hones : readSeparated true readGroup
        (['f', 'f', 'f', 'f'] ++ ':' :: (ipv4.text ++ rest))
        = some (0xffff, ':' :: (ipv4.text ++ rest)) :=
      readGroup_hex 0xffff (undigit_cons (by decide))
    have hdecimal : readSeparated true readIpv4
        (['f', 'f', 'f', 'f'] ++ ':' :: (ipv4.text ++ rest)) = none :=
      scan_bind_none (scan_bind_none (number_eq_none (undigit_cons (by decide))))
    refine readIpv6_parted hstart (.cons hdecimal hones hipv4_end) (by decide) ?_
    rw [← hipv4, segmentOf_bytesOf, segmentOf_bytesOf]
    rfl
  · cases h

/-- An IPv6 address's text is read back. -/
theorem readIpv6_text (ip : Ipv6Addr) (hrest : Closes rest) (hdecimal : Undigit 10 rest) :
    readIpv6 (ip.text ++ rest) = some (ip, rest) := by
  rw [Ipv6Addr.text]
  split
  · next ipv4 hipv4 =>
    rw [List.append_assoc]
    exact readIpv6_mapped hipv4 hdecimal
  · simp only
    split
    · next hzeros =>
      have hread := readIpv6_zeros hzeros hrest
      rw [List.append_assoc, List.cons_append, List.cons_append]
      exact hread
    · refine readIpv6_whole (groups_fmtSubslice ?_ hrest)
      rw [ip.length]

/-! ### Socket addresses -/

/-- So is a port's. -/
theorem readPort_text (port : UInt16) : readPort (':' :: decimal port.toNat) = some (port, []) := by
  have hnumber : number 10 none true (2 ^ 16) (decimal port.toNat ++ []) = some (port.toNat, []) :=
    number_toDigits (by decide) (by decide) port.toNat_lt (by rintro m ⟨⟩) (by rintro c ⟨⟩)
  rw [List.append_nil] at hnumber
  rw [readPort, scan_bind given_cons, scan_bind hnumber, UInt16.ofNat_toNat]
  rfl

/-- So is a scope's. -/
theorem readScopeId_text (scopeId : UInt32) (hrest : Undigit 10 rest) :
    readScopeId ('%' :: (decimal scopeId.toNat ++ rest)) = some (scopeId, rest) := by
  have hnumber : number 10 none true (2 ^ 32) (decimal scopeId.toNat ++ rest)
      = some (scopeId.toNat, rest) :=
    number_toDigits (by decide) (by decide) scopeId.toNat_lt (by rintro m ⟨⟩) hrest
  rw [readScopeId, scan_bind given_cons, scan_bind hnumber, UInt32.ofNat_toNat]
  rfl

theorem dot_notMem_decimal (n : ℕ) : '.' ∉ decimal n := by
  intro h
  have hdigit := isDigitOf_of_mem_toDigits (by decide) (by decide) h
  revert hdigit
  decide

/-- What may come after an IPv6 address. -/
theorem closes_cons {c : Char} (hdigit : isDigitOf 16 c = false) (hcolon : c ≠ ':') (hdot : c ≠ '.')
    (hrest : '.' ∉ rest) : Closes (c :: rest) where
  undigit := undigit_cons hdigit
  apart := by
    rintro rest ⟨⟩
    exact absurd rfl hcolon
  dotless := by simpa using ⟨Ne.symm hdot, hrest⟩

theorem dot_notMem_bracket (port : UInt16) : '.' ∉ ']' :: ':' :: decimal port.toNat := by
  simpa using dot_notMem_decimal port.toNat

/-- What fails leaves it to the other. -/
theorem orElse_of_none {α : Type} {r r' : Scan α} {text : List Char} (h : r text = none) :
    (r <|> r') text = r' text := by
  change (r text <|> r' text) = r' text
  rw [h]
  rfl

/-- What succeeds is first. -/
theorem orElse_of_some {α : Type} {r r' : Scan α} {text : List Char} {a : α}
    (h : r text = some (a, rest)) : (r <|> r') text = some (a, rest) := by
  change (r text <|> r' text) = _
  rw [h]
  rfl

/-- Where no IPv4 address begins, none is read. -/
theorem readSocketAddrV4_bracket (text : List Char) : readSocketAddrV4 ('[' :: text) = none :=
  scan_bind_none (scan_bind_none (scan_bind_none (number_eq_none (undigit_cons (by decide)))))

/-- A socket address of version 6 is read back. -/
theorem readSocketAddrV6_text (ip : Ipv6Addr) (scopeId : UInt32) (port : UInt16) :
    readSocketAddrV6 (SocketAddr.text (.v6 ip scopeId port)) = some (.v6 ip scopeId port, []) := by
  have hbracket : Undigit 10 (']' :: ':' :: decimal port.toNat) := undigit_cons (by decide)
  by_cases hscope : scopeId = 0
  · have hip : readIpv6 (ip.text ++ ']' :: ':' :: decimal port.toNat)
        = some (ip, ']' :: ':' :: decimal port.toNat) :=
      readIpv6_text ip (closes_cons (by decide) (by decide) (by decide)
        (dot_notMem_bracket port |>.imp (List.mem_cons_of_mem _))) hbracket
    have hnone : (readScopeId <|> pure 0) (']' :: ':' :: decimal port.toNat)
        = some (0, ']' :: ':' :: decimal port.toNat) :=
      orElse_of_none (scan_bind_none (given_ne (by decide)))
    rw [SocketAddr.text, if_pos hscope, readSocketAddrV6, scan_bind given_cons, scan_bind hip,
      scan_bind hnone, scan_bind given_cons, scan_bind (readPort_text port), hscope]
    rfl
  · have hip : readIpv6 (ip.text ++ '%' :: (decimal scopeId.toNat ++ ']' :: ':' ::
        decimal port.toNat)) = some (ip, '%' :: (decimal scopeId.toNat ++ ']' :: ':' ::
        decimal port.toNat)) := by
      refine readIpv6_text ip (closes_cons (by decide) (by decide) (by decide) ?_)
        (undigit_cons (by decide))
      rw [List.mem_append]
      exact not_or.mpr ⟨dot_notMem_decimal _, dot_notMem_bracket port⟩
    rw [SocketAddr.text, if_neg hscope, readSocketAddrV6, scan_bind given_cons, scan_bind hip,
      scan_bind (orElse_of_some (readScopeId_text scopeId hbracket)), scan_bind given_cons,
      scan_bind (readPort_text port)]
    rfl

/-- An address printed is read back. -/
theorem SocketAddr.parse_text (addr : SocketAddr) : SocketAddr.parse addr.text = some addr := by
  have hread : (readSocketAddrV4 <|> readSocketAddrV6) addr.text = some (addr, []) := by
    cases addr with
    | v4 ip port =>
      have hip : readIpv4 (SocketAddr.text (.v4 ip port)) = some (ip, ':' :: decimal port.toNat) :=
        readIpv4_text ip (undigit_cons (by decide))
      refine orElse_of_some ?_
      rw [readSocketAddrV4, scan_bind hip, scan_bind (readPort_text port)]
      rfl
    | v6 ip scopeId port =>
      have hbracket : readSocketAddrV4 (SocketAddr.text (.v6 ip scopeId port)) = none := by
        rw [SocketAddr.text]
        split <;> exact readSocketAddrV4_bracket _
      rw [orElse_of_none hbracket, readSocketAddrV6_text]
  simp only [SocketAddr.parse, StateT.run, hread]

/-! ### What a printed address is made of -/

/-- A digit, or what stands between digits. -/
def InAddr (c : Char) : Prop := isDigitOf 16 c = true ∨ c ∈ ['.', ':', '%', '[', ']']

variable {c : Char}

theorem inAddr_of_decimal {n : ℕ} (h : c ∈ decimal n) : InAddr c := by
  obtain ⟨d, hd, rfl⟩ := exists_of_mem_toDigits (by decide) h
  left
  rw [isDigitOf, digitOf_digitChar (by decide) (Nat.lt_trans hd (by decide))]
  rfl

theorem inAddr_of_hex {segment : UInt16} (h : c ∈ hex segment) : InAddr c :=
  .inl (isDigitOf_of_mem_toDigits (by decide) (by decide) h)

theorem inAddr_of_coloned {groups : List UInt16} (h : c ∈ coloned groups) : InAddr c := by
  obtain ⟨s, -, hs⟩ := List.mem_flatMap.mp h
  rcases List.mem_cons.mp hs with rfl | hs
  · exact .inr (by decide)
  · exact inAddr_of_hex hs

theorem inAddr_of_fmtSubslice {groups : List UInt16} (h : c ∈ fmtSubslice groups) : InAddr c := by
  cases groups with
  | nil => cases h
  | cons first tail =>
    rcases List.mem_append.mp h with h | h
    · exact inAddr_of_hex h
    · exact inAddr_of_coloned h

theorem Ipv4Addr.inAddr {ip : Ipv4Addr} (h : c ∈ ip.text) : InAddr c := by
  simp only [Ipv4Addr.text, List.mem_append, List.mem_cons] at h
  rcases h with h | rfl | h | rfl | h | rfl | h
  · exact inAddr_of_decimal h
  · exact .inr (by decide)
  · exact inAddr_of_decimal h
  · exact .inr (by decide)
  · exact inAddr_of_decimal h
  · exact .inr (by decide)
  · exact inAddr_of_decimal h

theorem Ipv6Addr.inAddr {ip : Ipv6Addr} (h : c ∈ ip.text) : InAddr c := by
  rw [Ipv6Addr.text] at h
  split at h
  · rcases List.mem_append.mp h with h | h
    · have hall : [':', ':', 'f', 'f', 'f', 'f', ':'].all (fun c =>
          isDigitOf 16 c || ['.', ':', '%', '[', ']'].contains c) = true := by decide
      simpa [InAddr] using List.all_eq_true.mp hall c h
    · exact Ipv4Addr.inAddr h
  · simp only at h
    split at h
    · simp only [List.mem_append, List.mem_cons] at h
      rcases h with h | rfl | rfl | h
      · exact inAddr_of_fmtSubslice h
      · exact .inr (by decide)
      · exact .inr (by decide)
      · exact inAddr_of_fmtSubslice h
    · exact inAddr_of_fmtSubslice h

/-- An address is written in few characters. -/
theorem SocketAddr.inAddr {addr : SocketAddr} (h : c ∈ addr.text) : InAddr c := by
  have hpunct : ∀ c ∈ ['.', ':', '%', '[', ']'], InAddr c := fun _ hc => .inr hc
  cases addr with
  | v4 ip port =>
    rcases List.mem_append.mp h with h | h
    · exact Ipv4Addr.inAddr h
    · rcases List.mem_cons.mp h with rfl | h
      · exact hpunct _ (by decide)
      · exact inAddr_of_decimal h
  | v6 ip scopeId port =>
    rw [SocketAddr.text] at h
    split at h
    · simp only [List.mem_cons, List.mem_append] at h
      rcases h with rfl | h | rfl | rfl | h
      · exact hpunct _ (by decide)
      · exact Ipv6Addr.inAddr h
      · exact hpunct _ (by decide)
      · exact hpunct _ (by decide)
      · exact inAddr_of_decimal h
    · simp only [List.mem_cons, List.mem_append] at h
      rcases h with rfl | h | rfl | h | rfl | rfl | h
      · exact hpunct _ (by decide)
      · exact Ipv6Addr.inAddr h
      · exact hpunct _ (by decide)
      · exact inAddr_of_decimal h
      · exact hpunct _ (by decide)
      · exact hpunct _ (by decide)
      · exact inAddr_of_decimal h

end Koh.Lib
