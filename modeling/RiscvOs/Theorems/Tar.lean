import RiscvOs.Theorems.Time
import RiscvOs.Tar

/-!
# The archive and its two scans

A ustar region is a sequence of entries. `tarfs_lookup` finds the first one of a name, and `sys_ls` prints the
names of all of them. In any other region the scans go where the size fields send them: they are sound if and only
if no field that they pass has a value of -512 or less, and the last header is whole.
-/

namespace RiscvOs

open ByteMem CString

variable {m : Mem} {start stop ptr n : Nat} {filename : List UInt8} {e : TarEntry} {es : List TarEntry}

/-! ## Archives -/

/-- An entry: its name, the address of its data and their size. -/
structure TarEntry where
  name : List UInt8
  addr : Nat
  size : Nat
  deriving Repr, DecidableEq

/-- A well-formed region from `ptr` to `stop`: headers with a name that ends in its 100 bytes and a size of eleven
octal digits, each followed by its data in blocks of 512 bytes. A block of zeros or the end of the region closes it. -/
inductive Ustar (m : Mem) (stop : Nat) : Nat → List TarEntry → Prop
  | done : Ustar m stop stop []
  | zeros {ptr : Nat} (fits : ptr + 512 ≤ stop) (zero : ∀ i < 512, m (ptr + i) = 0) : Ustar m stop ptr []
  | entry {ptr : Nat} {name : List UInt8} {size : Nat} {es : List TarEntry} (nonempty : name ≠ [])
      (terminated : name.length < 100) (string : StrAt m ptr name)
      (octal : ∀ i < 11, 48 ≤ (m (ptr + 124 + i)).toNat ∧ (m (ptr + 124 + i)).toNat < 56)
      (value : size = Nat.ofDigits 8 ((List.range 11).map fun i => (m (ptr + 124 + i)).toNat - 48).reverse)
      (rest : Ustar m stop (ptr + 512 + (size + 511) / 512 * 512) es) : Ustar m stop ptr (⟨name, ptr + 512, size⟩ :: es)

/-- The line of an entry. -/
def TarEntry.line (e : TarEntry) : List UInt8 := ascii "  " ++ e.name ++ ascii "\n"

namespace Ustar

/-- Each entry has a block of its own. -/
theorem length_le (h : Ustar m stop ptr es) : ptr + 512 * es.length ≤ stop := by
  induction h with
  | done => exact Nat.le_refl _
  | zeros fits => simp; omega
  | entry _ _ _ _ _ _ ih =>
      rw [List.length_cons]
      omega

end Ustar

/-! ## One header -/

theorem byte_ne_zero {name : List UInt8} (h : StrAt m ptr name) (hne : name ≠ []) : m ptr ≠ 0 := by
  cases name with
  | nil => exact absurd rfl hne
  | cons c s => exact fun h0 => h.2.1 (h.1.symm.trans h0)

/-- One more digit. -/
theorem octal_round {a b k : Nat} (ha : a < 8 ^ k) (hk : k ≤ 10) (h1 : 48 ≤ b) (h2 : b < 56) :
    (a * 8 + (b + (2 ^ 64 - 48))) % 2 ^ 64 = b - 48 + 8 * a ∧ b - 48 + 8 * a < 8 ^ (k + 1) := by
  have hpow : 8 ^ k ≤ 8 ^ 10 := Nat.pow_le_pow_right (by decide) hk
  rw [pow_succ 8 k]
  generalize 8 ^ k = p at *
  omega

/-- The first `k` digits. -/
theorem tarSize_digits {k : Nat} (hk : k ≤ 11)
    (h : ∀ i < 11, 48 ≤ (m (ptr + 124 + i)).toNat ∧ (m (ptr + 124 + i)).toNat < 56) :
    (List.range k).foldl
        (fun size i => (size * 8 + ((m (ptr + tarSizeField + i)).toNat + (2 ^ 64 - 48))) % 2 ^ 64) 0 =
      Nat.ofDigits 8 ((List.range k).map fun i => (m (ptr + 124 + i)).toNat - 48).reverse ∧
    Nat.ofDigits 8 ((List.range k).map fun i => (m (ptr + 124 + i)).toNat - 48).reverse < 8 ^ k := by
  induction k with
  | zero => exact ⟨rfl, Nat.one_pos⟩
  | succ k ih =>
      obtain ⟨heq, hlt⟩ := ih (Nat.le_of_succ_le hk)
      obtain ⟨h1, h2⟩ := h k hk
      rw [List.range_succ, List.foldl_append, heq, List.map_append, List.reverse_append]
      rw [List.foldl_cons, List.foldl_nil, List.map_cons, List.map_nil, List.reverse_singleton,
        List.singleton_append, Nat.ofDigits_cons, tarSizeField]
      exact octal_round hlt (Nat.le_of_succ_le_succ hk) h1 h2

/-- The digits have the value of their octal number, which 33 bits hold. -/
theorem tarSize_eq (h : ∀ i < 11, 48 ≤ (m (ptr + 124 + i)).toNat ∧ (m (ptr + 124 + i)).toNat < 56) :
    tarSize m ptr = Nat.ofDigits 8 ((List.range 11).map fun i => (m (ptr + 124 + i)).toNat - 48).reverse ∧
      tarSize m ptr < 8 ^ 11 := by
  obtain ⟨heq, hlt⟩ := tarSize_digits (Nat.le_refl 11) h
  exact ⟨heq, lt_of_eq_of_lt heq hlt⟩

/-- The scans go on behind the data. -/
theorem tarNext_eq {size : Nat} (hsize : tarSize m ptr = size) (hlt : size < 8 ^ 11)
    (hend : ptr + 512 + (size + 511) / 512 * 512 < 2 ^ 64) :
    tarNext m ptr = ptr + 512 + (size + 511) / 512 * 512 := by
  unfold tarNext tarBlockSize
  rw [hsize]
  dsimp only
  omega

/-! ## The scans -/

/-- `tarfs_lookup` finds the first entry of the name. -/
theorem tarfsLookupFrom_eq (h : Ustar m stop ptr es) (hstop : stop < 2 ^ 64) (hname : 0 ∉ filename)
    (hn : es.length < n) :
    tarfsLookupFrom m stop filename n ptr = .ok ((es.find? (·.name == filename)).map fun e => (e.addr, e.size)) := by
  induction h generalizing n with
  | done =>
      obtain ⟨n, rfl⟩ := Nat.exists_eq_add_of_lt hn
      rw [tarfsLookupFrom, if_neg (Nat.lt_irrefl _)]
      rfl
  | @zeros ptr fits zero =>
      obtain ⟨n, rfl⟩ := Nat.exists_eq_add_of_lt hn
      have h0 : m ptr = 0 := zero 0 (by decide)
      rw [tarfsLookupFrom, if_pos (by omega), if_pos h0]
      rfl
  | @entry ptr name size es nonempty _ string octal value rest ih =>
      obtain ⟨n, rfl⟩ : ∃ j, n = j + 1 := ⟨n - 1, by omega⟩
      have hend := rest.length_le
      obtain ⟨heq, hlt⟩ := tarSize_eq octal
      rw [← value] at heq
      rw [tarfsLookupFrom, if_pos (by omega), if_neg (byte_ne_zero string nonempty), List.find?_cons]
      by_cases hf : name = filename
      · rw [if_pos ((eqAt_iff string hname).mpr hf), heq]
        simp [hf, tarBlockSize]
      · rw [if_neg fun he => hf ((eqAt_iff string hname).mp he), tarNext_eq heq (heq ▸ hlt) (by omega)]
        simp only [beq_eq_false_iff_ne.mpr hf]
        exact ih (Nat.lt_of_succ_lt_succ hn)

/-- `sys_ls` prints one line for each entry. -/
theorem sysLsFrom_eq (h : Ustar m stop ptr es) (hstop : stop < 2 ^ 64) (hn : es.length < n) :
    sysLsFrom m stop n ptr = .ok (es.flatMap TarEntry.line) := by
  induction h generalizing n with
  | done =>
      obtain ⟨n, rfl⟩ := Nat.exists_eq_add_of_lt hn
      rw [sysLsFrom, if_neg (Nat.lt_irrefl _)]
      rfl
  | @zeros ptr fits zero =>
      obtain ⟨n, rfl⟩ := Nat.exists_eq_add_of_lt hn
      have h0 : m ptr = 0 := zero 0 (by decide)
      rw [sysLsFrom, if_pos (by omega), if_pos h0]
      rfl
  | @entry ptr name size es nonempty terminated string octal value rest ih =>
      obtain ⟨n, rfl⟩ : ∃ j, n = j + 1 := ⟨n - 1, by omega⟩
      have hend := rest.length_le
      obtain ⟨heq, hlt⟩ := tarSize_eq octal
      rw [← value] at heq
      have hstr : strOf m (2 ^ 64) ptr = name := strOf_eq string (by omega)
      rw [sysLsFrom, if_pos (by omega), if_neg (byte_ne_zero string nonempty), tarNext_eq heq (heq ▸ hlt) (by omega),
        ih (Nat.lt_of_succ_lt_succ hn), hstr]
      rfl

theorem Ustar.fuel (h : Ustar m stop start es) (hstop : stop < 2 ^ 64) : es.length < 2 ^ 64 + 1 := by
  have := h.length_le
  omega

theorem tarfsLookup_eq (h : Ustar m stop start es) (hstop : stop < 2 ^ 64) (hname : 0 ∉ filename) :
    tarfsLookup m start stop filename = .ok ((es.find? (·.name == filename)).map fun e => (e.addr, e.size)) :=
  tarfsLookupFrom_eq h hstop hname (h.fuel hstop)

theorem sysLs_eq (h : Ustar m stop start es) (hstop : stop < 2 ^ 64) :
    sysLs m start stop = .ok (ascii "Files in tarfs:\n" ++ es.flatMap TarEntry.line) := by
  rw [sysLs, sysLsFrom_eq h hstop (h.fuel hstop), Outcome.ok_bind]

/-- The RAM disk as a list of its files: what the other calls look up in the list is what `tarfs_lookup` finds. -/
theorem Initramfs.find_of_lookup (h : Ustar m stop start es) (hstop : stop < 2 ^ 64) (hname : 0 ∉ filename)
    (decode : Nat × Nat → Elf) {r : Option (Nat × Nat)} (hr : tarfsLookup m start stop filename = .ok r) :
    Initramfs.find (es.map fun e => (e.name, decode (e.addr, e.size))) filename = r.map decode := by
  rw [tarfsLookup_eq h hstop hname, Except.ok.injEq] at hr
  subst hr
  rw [Initramfs.find, List.find?_map, Option.map_map, Option.map_map]
  rfl

/-- `tarfs_lookup` returns the first entry of the name, and NULL where there is none; `sys_ls` prints the names of
all entries in their order, and these are the names that can be looked up. -/
theorem ustar_scans (h : Ustar m stop start es) (hstop : stop < 2 ^ 64) :
    (∀ filename, 0 ∉ filename →
      tarfsLookup m start stop filename = .ok ((es.find? (·.name == filename)).map fun e => (e.addr, e.size)) ∧
      (tarfsLookup m start stop filename = .ok none ↔ ∀ e ∈ es, e.name ≠ filename)) ∧
    sysLs m start stop = .ok (ascii "Files in tarfs:\n" ++ es.flatMap TarEntry.line) := by
  refine ⟨fun filename hname => ⟨tarfsLookup_eq h hstop hname, ?_⟩, sysLs_eq h hstop⟩
  rw [tarfsLookup_eq h hstop hname, Except.ok.injEq, Option.map_eq_none_iff, List.find?_eq_none]
  simp

/-! ## Two entries of one name -/

/-- Two empty files with the name "a". -/
def twins : Mem := fun x =>
  if 1024 ≤ x then 0 else if x % 512 = 0 then 97 else if 124 ≤ x % 512 ∧ x % 512 < 135 then 48 else 0

theorem twins_ustar : Ustar twins 1024 0 [⟨[97], 512, 0⟩, ⟨[97], 1024, 0⟩] :=
  .entry (by decide) (by decide) ⟨by decide, by decide, (by decide : twins _ = 0)⟩ (by decide) (by decide)
    (.entry (by decide) (by decide) ⟨by decide, by decide, (by decide : twins _ = 0)⟩ (by decide) (by decide) .done)

theorem ustar_scans_twins : (tarfsLookup twins 0 1024 [98] = .ok none ↔
    ∀ e ∈ [(⟨[97], 512, 0⟩ : TarEntry), ⟨[97], 1024, 0⟩], e.name ≠ [98]) :=
  ((ustar_scans twins_ustar (by decide)).1 [98] (by decide)).2

/-- `sys_ls` prints also the name of the second entry, which `tarfs_lookup` does not find. -/
theorem sysLs_twins : ∃ es, Ustar twins 1024 0 es ∧
    sysLs twins 0 1024 ≠ .ok (ascii "Files in tarfs:\n" ++
      (es.filter fun e => tarfsLookup twins 0 1024 e.name = .ok (some (e.addr, e.size))).flatMap TarEntry.line) := by
  refine ⟨_, twins_ustar, ?_⟩
  have hlook := tarfsLookup_eq twins_ustar (by decide) (show 0 ∉ [97] by decide)
  rw [sysLs_eq twins_ustar (by decide)]
  simp [hlook, TarEntry.line]

/-! ## Any region -/

/-- The size field as a number: each of its digits is a byte less `'0'`, and may be negative. -/
def tarField (m : Mem) (ptr : Nat) : Int :=
  (List.range 11).foldl (fun size i => size * 8 + ((m (ptr + 124 + i)).toNat - 48)) 0

/-- The place behind the data, if addresses had no bound. -/
def tarBehind (m : Mem) (ptr : Nat) : Int := ptr + 512 * (1 + (tarField m ptr + 511) / 512)

/-- Every header that a scan from `ptr` comes to lies before `stop`. Where the scan goes on, the size is greater than
-512, or it sends the scan below address 0 and so behind the region. -/
inductive Spaced (m : Mem) (stop : Nat) (found : Nat → Bool) : Nat → Prop
  | past {ptr : Nat} (h : stop ≤ ptr) : Spaced m stop found ptr
  | last {ptr : Nat} (fits : ptr + 512 ≤ stop) (h : found ptr) : Spaced m stop found ptr
  | under {ptr : Nat} (fits : ptr + 512 ≤ stop) (h : tarBehind m ptr < 0) : Spaced m stop found ptr
  | next {ptr ptr' : Nat} (fits : ptr + 512 ≤ stop) (size : -512 < tarField m ptr) (h : tarBehind m ptr = ptr')
      (rest : Spaced m stop found ptr') : Spaced m stop found ptr

/-- The headers read lie inside the region, one behind the other. -/
def HeadersInside (m : Mem) (stop : Nat) (found : Nat → Bool) (n start : Nat) : Prop :=
  (tarHeaders m stop found n start).Pairwise (· < ·) ∧
    ∀ p ∈ tarHeaders m stop found n start, start ≤ p ∧ p + 512 ≤ stop

/-- The scan does not need all of its `n` rounds, or the last one finds what it looks for. -/
def ScanEnds (m : Mem) (stop : Nat) (found : Nat → Bool) (n start : Nat) : Prop :=
  (tarHeaders m stop found n start).length < n ∨ ∃ p ∈ tarHeaders m stop found n start, found p

variable {found : Nat → Bool}

theorem tarField_rounds (m : Mem) (ptr k : Nat) :
    (((List.range k).foldl
        (fun size i => (size * 8 + ((m (ptr + tarSizeField + i)).toNat + (2 ^ 64 - 48))) % 2 ^ 64) 0 : Nat) : Int) =
      (List.range k).foldl (fun (size : Int) i => size * 8 + ((m (ptr + 124 + i)).toNat - 48)) 0 % 2 ^ 64 ∧
    -7 * (8 ^ k - 1) ≤ (List.range k).foldl (fun (size : Int) i => size * 8 + ((m (ptr + 124 + i)).toNat - 48)) 0 ∧
    (List.range k).foldl (fun (size : Int) i => size * 8 + ((m (ptr + 124 + i)).toNat - 48)) 0 ≤ 30 * (8 ^ k - 1) := by
  induction k with
  | zero => simp
  | succ k ih =>
      obtain ⟨heq, hge, hle⟩ := ih
      rw [List.range_succ, List.foldl_append, List.foldl_append, List.foldl_cons, List.foldl_nil, List.foldl_cons,
        List.foldl_nil, tarSizeField]
      have hpow : (8 : Int) ^ (k + 1) = 8 ^ k * 8 := pow_succ 8 k
      have hbyte := (m (ptr + 124 + k)).toNat_lt
      generalize (m (ptr + 124 + k)).toNat = b at *
      rw [tarSizeField] at heq
      generalize (List.range k).foldl (fun size i => (size * 8 + ((m (ptr + 124 + i)).toNat + (2 ^ 64 - 48))) % 2 ^ 64) 0
        = u at *
      generalize (List.range k).foldl (fun (size : Int) i => size * 8 + ((m (ptr + 124 + i)).toNat - 48)) 0 = v at *
      generalize (8 : Int) ^ (k + 1) = p' at *
      generalize (8 : Int) ^ k = p at *
      refine ⟨?_, ?_, ?_⟩ <;> omega

/-- The size that the scans compute is the value of the field, in 64 bits. -/
theorem tarSize_field (m : Mem) (ptr : Nat) : (tarSize m ptr : Int) = tarField m ptr % 2 ^ 64 ∧
    -7 * 8 ^ 11 ≤ tarField m ptr ∧ tarField m ptr ≤ 30 * 8 ^ 11 := by
  obtain ⟨heq, hge, hle⟩ := tarField_rounds m ptr 11
  exact ⟨heq, by unfold tarField; omega, by unfold tarField; omega⟩

/-- The pointer moves by whole blocks, in 64 bits. -/
theorem tarNext_behind (m : Mem) (ptr : Nat) : (tarNext m ptr : Int) = tarBehind m ptr % 2 ^ 64 := by
  have heq := (tarSize_field m ptr).1
  unfold tarNext tarBehind tarBlockSize
  dsimp only
  omega

/-! ### One round -/

theorem tarHeaders_past (h : stop ≤ ptr) : tarHeaders m stop found n ptr = [] := by
  cases n with
  | zero => rfl
  | succ n => exact if_neg (Nat.not_lt.mpr h)

theorem tarHeaders_found (hlt : ptr < stop) (hf : found ptr) : tarHeaders m stop found (n + 1) ptr = [ptr] := by
  rw [tarHeaders, if_pos hlt, if_pos hf]

theorem tarHeaders_next (hlt : ptr < stop) (hf : found ptr = false) :
    tarHeaders m stop found (n + 1) ptr = ptr :: tarHeaders m stop found n (tarNext m ptr) := by
  rw [tarHeaders, if_pos hlt, if_neg (by simp [hf])]

theorem scanEnds_past (h : stop ≤ ptr) : ScanEnds m stop found (n + 1) ptr :=
  .inl (by rw [tarHeaders_past h]; exact Nat.succ_pos n)

theorem scanEnds_found (hlt : ptr < stop) (hf : found ptr) : ScanEnds m stop found (n + 1) ptr :=
  .inr ⟨ptr, by rw [tarHeaders_found hlt hf]; exact List.mem_singleton.mpr rfl, hf⟩

theorem scanEnds_next (hlt : ptr < stop) (hf : found ptr = false) :
    ScanEnds m stop found (n + 1) ptr ↔ ScanEnds m stop found n (tarNext m ptr) := by
  simp [ScanEnds, tarHeaders_next hlt hf, hf]

theorem headersInside_past (h : stop ≤ ptr) : HeadersInside m stop found n ptr := by
  rw [HeadersInside, tarHeaders_past h]
  exact ⟨.nil, by simp⟩

theorem headersInside_found (hlt : ptr < stop) (hf : found ptr) :
    HeadersInside m stop found (n + 1) ptr ↔ ptr + 512 ≤ stop := by
  simp [HeadersInside, tarHeaders_found hlt hf]

/-- The first header that is read is the one that the scan starts from. -/
theorem headersInside_next (hlt : ptr < stop) (hf : found ptr = false) :
    HeadersInside m stop found (n + 1) ptr ↔ ptr + 512 ≤ stop ∧ HeadersInside m stop found n (tarNext m ptr) ∧
      ∀ p ∈ tarHeaders m stop found n (tarNext m ptr), ptr < p := by
  have hhead : (tarHeaders m stop found n (tarNext m ptr)).Pairwise (· < ·) →
      ∀ p ∈ tarHeaders m stop found n (tarNext m ptr), tarNext m ptr ≤ p := by
    cases n with
    | zero => exact fun _ p hp => absurd hp List.not_mem_nil
    | succ n =>
        rw [tarHeaders]
        split
        · split
          · simp
          · intro hp p hmem
            rcases List.mem_cons.mp hmem with rfl | hmem
            · exact Nat.le_refl _
            · exact (List.rel_of_pairwise_cons hp hmem).le
        · simp
  rw [HeadersInside, tarHeaders_next hlt hf, List.pairwise_cons]
  constructor
  · rintro ⟨⟨hgt, hp⟩, hin⟩
    exact ⟨(hin ptr (List.mem_cons_self ..)).2, ⟨hp, fun p hmem =>
      ⟨hhead hp p hmem, (hin p (List.mem_cons_of_mem _ hmem)).2⟩⟩, hgt⟩
  · rintro ⟨hfit, ⟨hp, hin⟩, hgt⟩
    refine ⟨⟨hgt, hp⟩, fun p hmem => ?_⟩
    rcases List.mem_cons.mp hmem with rfl | hmem
    · exact ⟨Nat.le_refl _, hfit⟩
    · exact ⟨(hgt p hmem).le, (hin p hmem).2⟩

/-- `tarfs_lookup` returns if its scan ends. -/
theorem tarfsLookupFrom_returns :
    (∃ r, tarfsLookupFrom m stop filename n ptr = .ok r) ↔ ScanEnds m stop (lookupEnds m filename) n ptr := by
  induction n generalizing ptr with
  | zero => simp [tarfsLookupFrom, ScanEnds, tarHeaders]
  | succ n ih =>
      rw [tarfsLookupFrom]
      by_cases hlt : ptr < stop
      · rw [if_pos hlt]
        by_cases h0 : m ptr = 0
        · rw [if_pos h0]
          exact iff_of_true ⟨_, rfl⟩ (scanEnds_found hlt (by simp [lookupEnds, h0]))
        · rw [if_neg h0]
          by_cases he : eqAt m ptr filename
          · rw [if_pos he]
            exact iff_of_true ⟨_, rfl⟩ (scanEnds_found hlt (by simp [lookupEnds, he]))
          · rw [if_neg he, scanEnds_next hlt (by simp [lookupEnds, h0, he])]
            exact ih
      · rw [if_neg hlt]
        exact iff_of_true ⟨_, rfl⟩ (scanEnds_past (Nat.not_lt.mp hlt))

/-- So does `sys_ls`. -/
theorem sysLsFrom_returns :
    (∃ out, sysLsFrom m stop n ptr = .ok out) ↔ ScanEnds m stop (lsEnds m) n ptr := by
  induction n generalizing ptr with
  | zero => simp [sysLsFrom, ScanEnds, tarHeaders]
  | succ n ih =>
      rw [sysLsFrom]
      by_cases hlt : ptr < stop
      · rw [if_pos hlt]
        by_cases h0 : m ptr = 0
        · rw [if_pos h0]
          exact iff_of_true ⟨_, rfl⟩ (scanEnds_found hlt (by simp [lsEnds, h0]))
        · rw [if_neg h0, scanEnds_next hlt (by simp [lsEnds, h0]), ← ih]
          constructor
          · rintro ⟨out, h⟩
            obtain ⟨rest, h, -⟩ := Outcome.bind_eq_ok.mp h
            exact ⟨rest, h⟩
          · rintro ⟨rest, h⟩
            exact ⟨_, Outcome.bind_eq_ok.mpr ⟨rest, h, rfl⟩⟩
      · rw [if_neg hlt]
        exact iff_of_true ⟨_, rfl⟩ (scanEnds_past (Nat.not_lt.mp hlt))

/-! ### All rounds -/

/-- Where the size is greater than -512, the pointer moves on, and nothing wraps. -/
theorem tarNext_of_size (hstop : stop ≤ 2 ^ 63) (hfit : ptr + 512 ≤ stop) (hsize : -512 < tarField m ptr) :
    tarBehind m ptr = tarNext m ptr ∧ ptr < tarNext m ptr := by
  have hnext := tarNext_behind m ptr
  obtain ⟨-, hge, hle⟩ := tarSize_field m ptr
  unfold tarBehind at *
  omega

/-- Below address 0 lies the end of the address space. -/
theorem tarNext_of_under (hstop : stop ≤ 2 ^ 63) (h : tarBehind m ptr < 0) : stop ≤ tarNext m ptr := by
  have hnext := tarNext_behind m ptr
  obtain ⟨-, hge, hle⟩ := tarSize_field m ptr
  unfold tarBehind at *
  omega

theorem tarNext_le (h : tarField m ptr ≤ -512) (h0 : 0 ≤ tarBehind m ptr) (hlt : ptr < 2 ^ 63) : tarNext m ptr ≤ ptr := by
  have hnext := tarNext_behind m ptr
  unfold tarBehind at *
  omega

theorem Spaced.scan (h : Spaced m stop found ptr) (hstop : stop ≤ 2 ^ 63) (hn : stop < ptr + n) (hpos : 0 < n) :
    ScanEnds m stop found n ptr ∧ HeadersInside m stop found n ptr := by
  induction h generalizing n with
  | past h =>
      obtain ⟨n, rfl⟩ := Nat.exists_eq_succ_of_ne_zero hpos.ne'
      exact ⟨scanEnds_past h, headersInside_past h⟩
  | last fits hf =>
      obtain ⟨n, rfl⟩ := Nat.exists_eq_succ_of_ne_zero hpos.ne'
      exact ⟨scanEnds_found (by omega) hf, (headersInside_found (by omega) hf).mpr fits⟩
  | @under ptr fits h =>
      obtain ⟨n, rfl⟩ : ∃ j, n = j + 1 + 1 := ⟨n - 2, by omega⟩
      cases hf : found ptr with
      | true => exact ⟨scanEnds_found (by omega) hf, (headersInside_found (by omega) hf).mpr fits⟩
      | false =>
          have hend := tarNext_of_under hstop h
          rw [scanEnds_next (by omega) hf, headersInside_next (by omega) hf]
          refine ⟨scanEnds_past hend, fits, headersInside_past hend, ?_⟩
          rw [tarHeaders_past hend]
          simp
  | @next ptr ptr' fits size h rest ih =>
      obtain ⟨n, rfl⟩ : ∃ j, n = j + 1 := ⟨n - 1, by omega⟩
      cases hf : found ptr with
      | true => exact ⟨scanEnds_found (by omega) hf, (headersInside_found (by omega) hf).mpr fits⟩
      | false =>
          obtain ⟨hnext, hlt⟩ := tarNext_of_size hstop fits size
          obtain rfl : tarNext m ptr = ptr' := by omega
          obtain ⟨hends, hin⟩ := ih (n := n) (by omega) (by omega)
          rw [scanEnds_next (by omega) hf, headersInside_next (by omega) hf]
          exact ⟨hends, fits, hin, fun p hp => Nat.lt_of_lt_of_le hlt (hin.2 p hp).1⟩

/-- A scan that ends without a step back. -/
theorem spaced_of_scan (hstop : stop ≤ 2 ^ 63) (he : ScanEnds m stop found n ptr) (hin : HeadersInside m stop found n ptr) :
    Spaced m stop found ptr := by
  induction n generalizing ptr with
  | zero => simp [ScanEnds, tarHeaders] at he
  | succ n ih =>
      by_cases hlt : ptr < stop
      · cases hf : found ptr with
        | true => exact .last ((headersInside_found hlt hf).mp hin) hf
        | false =>
            rw [scanEnds_next hlt hf] at he
            obtain ⟨fits, hin, hgt⟩ := (headersInside_next hlt hf).mp hin
            have hrest := ih he hin
            by_cases hsize : -512 < tarField m ptr
            · exact .next fits hsize (tarNext_of_size hstop fits hsize).1 hrest
            · refine .under fits ?_
              by_contra h0
              -- the scan would read a header at or before this one
              have hle := tarNext_le (Int.not_lt.mp hsize) (Int.not_lt.mp h0) (by omega)
              cases n with
              | zero => simp [ScanEnds, tarHeaders] at he
              | succ n =>
                  have hmem : tarNext m ptr ∈ tarHeaders m stop found (n + 1) (tarNext m ptr) := by
                    rw [tarHeaders, if_pos (by omega)]
                    split <;> simp
                  exact absurd (hgt _ hmem) (by omega)
      · exact .past (Nat.not_lt.mp hlt)

theorem scan_iff (hstop : stop ≤ 2 ^ 63) :
    ScanEnds m stop found (2 ^ 64 + 1) start ∧ HeadersInside m stop found (2 ^ 64 + 1) start ↔
      Spaced m stop found start :=
  ⟨fun h => spaced_of_scan hstop h.1 h.2, fun h => h.scan hstop (by omega) (by omega)⟩

/-- In a region of any content, `tarfs_lookup` of any name and `sys_ls` return, with headers inside the region and in
increasing order, if and only if their scans meet no size that is too small and no header that is cut off. -/
theorem tarScans_iff (hstop : stop ≤ 2 ^ 63) :
    (∀ filename, (∃ r, tarfsLookup m start stop filename = .ok r) ∧
        HeadersInside m stop (lookupEnds m filename) (2 ^ 64 + 1) start ↔ Spaced m stop (lookupEnds m filename) start) ∧
    ((∃ out, sysLs m start stop = .ok out) ∧ HeadersInside m stop (lsEnds m) (2 ^ 64 + 1) start ↔
      Spaced m stop (lsEnds m) start) := by
  refine ⟨fun filename => ?_, ?_⟩
  · rw [← scan_iff hstop, ← tarfsLookupFrom_returns, tarfsLookup]
  · rw [← scan_iff hstop, ← sysLsFrom_returns]
    refine and_congr_left' ?_
    constructor
    · rintro ⟨out, h⟩
      obtain ⟨lines, h, -⟩ := Outcome.bind_eq_ok.mp h
      exact ⟨lines, h⟩
    · rintro ⟨lines, h⟩
      exact ⟨_, Outcome.bind_eq_ok.mpr ⟨lines, h, rfl⟩⟩

theorem tarScans_iff_twins : (∃ r, tarfsLookup twins 0 1024 [98] = .ok r) ∧
    HeadersInside twins 1024 (lookupEnds twins [98]) (2 ^ 64 + 1) 0 :=
  ((tarScans_iff (by decide)).1 [98]).mpr
    (.next (by decide) (by decide) (by decide : tarBehind twins 0 = (512 : Nat))
      (.next (by decide) (by decide) (by decide : tarBehind twins 512 = (1024 : Nat)) (.past (by decide))))

/-- A file "a" in the RAM of the machine. The ninth character of its size is not a digit, and the size is -512. -/
def stuck : Mem := fun x =>
  if x = 0x80300000 then 97 else if 0x80300000 + 124 ≤ x ∧ x < 0x80300000 + 135 then
    if x = 0x80300000 + 132 then 40 else 48 else 0

theorem tarfsLookup_stuck : tarfsLookup stuck 0x80300000 0x80300400 [98] = .error .spin := by
  have hnext : tarNext stuck 0x80300000 = 0x80300000 := by decide
  have hstep : ∀ n, tarfsLookupFrom stuck 0x80300400 [98] n 0x80300000 = .error .spin := by
    intro n
    induction n with
    | zero => rfl
    | succ n ih =>
        rw [tarfsLookupFrom, if_pos (by decide), if_neg (by decide), if_neg (by decide), hnext]
        exact ih
  exact hstep _

end RiscvOs
