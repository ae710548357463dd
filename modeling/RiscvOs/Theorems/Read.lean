import RiscvOs.Lemmas.Stores
import RiscvOs.Lemmas.Restart

/-!
# What `sys_read` gives back

A `sys_read` that is not switched away comes back with the next line of the console, as far as the buffer can hold
it.
-/

namespace RiscvOs

open ByteMem Outcome Kernel Lts

variable {L : Layout} {fs : Initramfs} {k k' k₁ : Kernel} {F : List Nat} {c : Fin procsMax} {s s' s₀ : Machine}
  {t : Trap} {l₀ : List Trap} {fd buf len i n r x : Nat} {b : UInt8} {line input input' : List UInt8}

/-- A line of `n` characters at most: it ends with the first newline, or it has `n` characters. -/
structure IsLine (n : Nat) (line : List UInt8) : Prop where
  le : line.length ≤ n
  first : newline ∉ line.dropLast
  full : line.length = n ∨ line.getLast? = some newline

theorem IsLine.newline : IsLine (n + 1) [newline] := ⟨by simp, by simp, .inr rfl⟩

theorem IsLine.nil : IsLine 0 [] := ⟨Nat.le_refl 0, by simp, .inl rfl⟩

theorem IsLine.cons (h : IsLine n line) (hb : b ≠ RiscvOs.newline) : IsLine (n + 1) (b :: line) := by
  refine ⟨by simpa using h.le, ?_, ?_⟩
  · cases line with
    | nil => simp
    | cons d line =>
        rw [List.dropLast_cons_cons, List.mem_cons, not_or]
        exact ⟨hb.symm, h.first⟩
  · rcases h.full with hlen | hlast
    · exact .inl (by rw [List.length_cons, hlen])
    · refine .inr ?_
      rw [List.getLast?_cons, hlast]
      rfl

namespace Kernel

/-- One `yield` after another comes back, and the loop goes on with the next character. -/
theorem Running.readLoop_line (h : Running L k F c) (hb : buf + i + n ≤ kernelBase)
    (hs : k.readLoop L buf i n input = .ok (.value r, k', input')) : ∃ line, input = line ++ input' ∧
      r = i + line.length ∧ IsLine n line ∧ (k'.procs c).pageTable = (k.procs c).pageTable ∧ ∀ x < kernelBase,
        userView k'.phys.mem (k'.procs c).pageTable x =
          overlay (buf + i) line (userView k.phys.mem (k.procs c).pageTable) x := by
  induction n generalizing k i input with
  | zero =>
      simp only [readLoop, Except.ok.injEq, Prod.mk.injEq, SysRet.value.injEq] at hs
      obtain ⟨rfl, rfl, rfl⟩ := hs
      exact ⟨[], rfl, rfl, .nil, rfl, fun x _ => overlay_nil.symm⟩
  | succ n ih =>
      cases input with
      | nil => cases hs
      | cons b input =>
          simp only [readLoop, bind_eq_ok] at hs
          obtain ⟨k₁, h1, hs⟩ := hs
          have hw := storeU8_spec h.toInv h.live h.pageTable h.active (by omega) h1
          have hview := fun x hx => h.storeU8_view (x := x) (by omega) h1 hx
          split at hs
          · rename_i hn
            simp only [Except.ok.injEq, Prod.mk.injEq, SysRet.value.injEq] at hs
            obtain ⟨rfl, rfl, rfl⟩ := hs
            refine ⟨[b], rfl, rfl, hn ▸ .newline, by rw [hw.procs], fun x hx => ?_⟩
            rw [hview x hx, overlay_cons, overlay_nil]
          · rename_i hn
            have hsw := yield_switched (k := k₁) (L := L)
            split at hs
            · cases hs
            · rename_i k₂ hk
              rw [hk] at hsw
              have hstay := (h.userWrites hw).yield_stay (of_decide_eq_false hsw.symm)
              have hphys := yield_phys L k₁
              have hpt : (k₂.procs c).pageTable = (k₁.procs c).pageTable := by
                have hsame := yield_same L k₁ c
                rw [hk] at hsame
                exact hsame.pageTable
              rw [hk] at hstay hphys
              obtain ⟨line, rfl, rfl, hline, hroot, hrest⟩ := ih hstay (by omega) hs
              refine ⟨b :: line, rfl, by simp; omega, hline.cons hn, by rw [hroot, hpt, hw.procs], fun x hx => ?_⟩
              rw [hrest x hx, hphys, hpt, overlay_cons, Nat.add_assoc]
              unfold overlay
              rw [hview x hx]

end Kernel

namespace Machine

/-- The process that traps has read `line` when it goes on. -/
structure ReadReturns (s : Machine) (t : Trap) (buf len : Nat) (line : List UInt8) (s' : Machine) : Prop where
  input : s.input = line ++ s'.input
  isLine : IsLine len line
  a0 : s'.user 10 = BitVec.ofNat 64 line.length
  pc : s'.user tfPc = t.frame tfPc + 4
  pageTable : (s'.kernel.procs s.kernel.cur).pageTable = (s.kernel.procs s.kernel.cur).pageTable
  memory : ∀ x < kernelBase, userView s'.kernel.phys.mem (s.kernel.procs s.kernel.cur).pageTable x =
    overlay buf line (userView t.mem (s.kernel.procs s.kernel.cur).pageTable) x

theorem CarefulStep.readReturns (hfs : ∀ f ∈ fs, f.2.Linked) (hr : Running L s.kernel F c)
    (h : s.CarefulStep L fs t s') (hreq : t.request = some (.read fd buf len)) (href : readRefused fd buf len = false)
    (hcur : s'.kernel.cur = c) : ∃ line, ReadReturns s t buf len line s' := by
  obtain ⟨⟨hruns, htrap⟩, hcare⟩ := h
  have hk := hruns.inKernel hr
  have hcc := hcare _ hreq
  obtain ⟨hcause, hcall⟩ := Trap.request_ecall hreq
  unfold trap at htrap
  simp only [hcause, hcall, bind_eq_ok, Prod.exists] at htrap
  obtain ⟨ret, k', input, hsys, htrap⟩ := htrap
  have hserved := hk.handleSyscall_served hfs (show Kernel.Careful _ _ c (.read fd buf len) from hcc) hsys
  have hle : buf + len ≤ kernelBase := (show readRefused fd buf len = true ∨ _ from hcc).resolve_left (by simp [href])
  cases ret with
  | switched =>
      -- then another process has its turn
      simp only [Kernel.handleSyscall, sysRead, href, Bool.false_eq_true, if_false] at hsys
      rcases readLoop_table hsys with ⟨-, hsw, ht⟩ | ⟨m, hret, -⟩
      · rw [← Except.ok.inj htrap] at hcur
        have hcur' : k'.table.current = (s.inKernel L t).table.current := Eq.trans hcur hk.cur.symm
        rw [ht, Table.current_yield] at hcur'
        exact absurd hcur' hsw
      · cases hret
  | value r =>
      obtain ⟨F', c', hr', hval⟩ := hserved.running
      replace hr' : Running L k' F' c := hval _ rfl ▸ hr'
      simp only [Kernel.handleSyscall, sysRead, href, Bool.false_eq_true, if_false] at hsys
      obtain ⟨line, hin, rfl, hline, hpt, hview⟩ := hk.readLoop_line (by omega) hsys
      simp only [Except.ok.injEq, hr.cur] at htrap
      have hstays := setResult_stays hr' (0 + line.length)
      rw [← htrap]
      refine ⟨line, hin, hline, goOn_a0.trans (by rw [Nat.zero_add]), goOn_pc, ?_, fun x hx => ?_⟩
      · rw [hr.cur]
        exact hpt
      · have hspace := hr'.spaceOk
        rw [hr.cur]
        have hres := hstays.userView hspace x
        rw [hstays.pageTable, hpt] at hres
        rw [hpt] at hview
        refine hres.trans ((hview x hx).trans ?_)
        refine congrArg (fun view => overlay buf line view x) (funext fun y => ?_)
        exact (atTrap_stays hr hruns).userView (hr.userWrites (hruns.userWrites hr)).spaceOk y

end Machine

namespace Machine

/-- The shell reads a line of two characters into a buffer of five. -/
theorem exists_read (L : Layout) : ∃ (s s' : Machine) (t : Trap), s.Start L tinyFs ∧ s.CarefulStep L tinyFs t s' ∧
    t.request = some (.read 0 dataVa 5) ∧ s'.kernel.cur = s.kernel.cur := by
  obtain ⟨s, F, hstart, hinput, hfree, hboot, -⟩ := exists_shell L [97, RiscvOs.newline]
  obtain ⟨t, ht, -⟩ := hfree.call 63 0 dataVa 5 [] []
  have hcall : callOf t.frame = some (.read 0 dataVa 5) := by
    rw [ht.frame]
    rfl
  have hreq : t.request = some (.read 0 dataVa 5) := by rw [Trap.request, ht.cause, hcall]
  obtain ⟨k₁, h1, hw₁, hc₁⟩ := ht.code.storeU8 (x := 64) ht.running (by decide) 97
  have hr₁ := ht.running.userWrites hw₁
  -- with two processes in the table, the shell is its own successor
  have hsw : ¬k₁.table.Switches := by
    rw [storeU8_table h1, inKernel_table (by rw [hfree.running.current]; rfl), hstart.table]
    decide
  have hy : k₁.yield L = ((k₁.yield L).1, false) := Prod.ext rfl (yield_switched.trans (decide_eq_false hsw))
  obtain ⟨k₂, h2, hw₂, -⟩ := (hc₁.yield L).storeU8 (x := 65) (hr₁.yield_stay hsw) (by decide) RiscvOs.newline
  have hsys : (s.inKernel L t).handleSyscall L tinyFs s.input t.now (.read 0 dataVa 5) =
      .ok (.value 2, k₂, []) := by
    have h1' : (s.inKernel L t).storeU8 L (dataVa + 0) 97 = .ok k₁ := h1
    have h2' : (k₁.yield L).1.storeU8 L (dataVa + (0 + 1)) RiscvOs.newline = .ok k₂ := h2
    simp only [Kernel.handleSyscall, sysRead, hinput, readLoop, h1', ok_bind]
    rw [if_neg (by decide), if_neg (by decide), hy]
    simp only [h2', ok_bind, if_true]
  refine ⟨s, _, t, hstart, ⟨⟨ht.runs, trap_value ht.cause hcall hsys⟩, careful_of hreq (.inr (by decide))⟩, hreq, ?_⟩
  rw [goOn_cur]
  exact ((hr₁.yield_stay hsw).userWrites hw₂).cur.trans hfree.running.cur.symm

end Machine

end RiscvOs
