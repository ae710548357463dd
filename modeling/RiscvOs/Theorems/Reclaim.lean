import RiscvOs.Theorems.Staging

/-!
# Giving the memory of a process back

`process_free_userspace` walks the tree of a process twice: the loop over the addresses frees the frames it
finds and empties their entries, `free_pagetable` frees what is left. For every well-formed tree the two
together push each page of it once.
-/

namespace RiscvOs

open ByteMem LinkedList Outcome

variable {L : Layout} {k : Kernel} {i : Fin procsMax} {m : Mem} {root pg : Nat}

/-- The pages of a tree are its tables and the frames of its user leaves. -/
theorem inSpace_iff : InSpace m root pg ↔ IsTable m root pg ∨ ∃ v, userFrame (leafAt m root v) = some pg := by
  constructor
  · rintro ⟨q, hq⟩
    rcases spaceAt_cases hq with ht | ⟨v, _, hv⟩
    · exact .inl ⟨q, ht⟩
    · exact .inr ⟨v, hv⟩
  · rintro (ht | ⟨v, hv⟩)
    · exact ht.inSpace
    · exact inSpace_of_frame hv

theorem freeRounds_of_le (hheap : (k.procs i).heapEnd ≤ kernelBase) (hstack : k.gUserStackTop ≤ kernelBase) :
    ∃ n, k.freeRounds i = .ok n := by
  have hmax : max (k.procs i).heapEnd k.gUserStackTop ≤ kernelBase := max_le hheap hstack
  have hend : ¬pgRoundUp (max (k.procs i).heapEnd k.gUserStackTop) ≥ 2 ^ 64 - 4096 := by
    unfold pgRoundUp
    unfold kernelBase at hmax
    omega
  exact ⟨_, if_neg hend⟩

/-- `process_free_userspace` of a process with a well-formed tree, wherever its user pages lie. The new free list
begins with the pages `ps`: the tables and the frames of the user leaves, each once. -/
theorem processFreeUserspace_pushes (ht : TreeOk k.phys.mem 2 (k.procs i).pageTable)
    (hpt : (k.procs i).pageTable ≠ 0) (hheap : (k.procs i).heapEnd ≤ kernelBase)
    (hstack : k.gUserStackTop ≤ kernelBase) (hfree : k.phys.freeList < 2 ^ 64) :
    ∃ k' ps, k.processFreeUserspace i = .ok k' ∧ ps.Nodup ∧
      (∀ pg, pg ∈ ps ↔ IsTable k.phys.mem (k.procs i).pageTable pg ∨
        ∃ v, userFrame (leafAt k.phys.mem (k.procs i).pageTable v) = some pg) ∧
      Segment (load64 k'.phys.mem) k'.phys.freeList ps k.phys.freeList ∧
      k'.phys.gFreePages = (k.phys.gFreePages + ps.length) % 2 ^ 64 ∧
      (∀ a, pageOf a ∉ ps → k'.phys.mem a = k.phys.mem a) ∧
      k'.procs = Function.update k.procs i { k.procs i with pageTable := 0 } := by
  obtain ⟨n, hn⟩ := freeRounds_of_le hheap hstack
  obtain ⟨s₁, s₂, ps, h1, h2, hp, hps⟩ := freeTree_spec ht n
  refine ⟨{ k with phys := s₂.freePage (k.procs i).pageTable }.setProc i { k.procs i with pageTable := 0 }, ps,
    ?_, hp.nodup, fun pg => (hps pg).trans inSpace_iff, ?_, ?_, fun a ha => ?_, rfl⟩
  · rw [processFreeUserspace_eq hpt, hn, ok_bind, h1, ok_bind, h2, ok_bind]
  · refine hp.segment (fun pg hpg => ?_) hfree fun pg hpg => ?_
    · obtain ⟨q, hq⟩ := (hps pg).mp hpg
      exact ht.held_lt hq
    · obtain ⟨q, hq⟩ := (hps pg).mp hpg
      exact held_aligned ht.aligned hq
  · have hcount := hp.count
    rw [← hcount]
    exact (Nat.mod_eq_of_lt (Nat.mod_lt _ (by decide))).symm
  · exact hp.mem ha fun hw => ha ((hps _).mpr hw)

/-- The tree of the shell after boot. -/
theorem processFreeUserspace_pushes_shell :
    ∃ (k k' : Kernel) (ps : List Nat), kernelMain .kernelMap tinyFs (fun _ => 0) = .ok k ∧
      k.processFreeUserspace 1 = .ok k' ∧ ps.Nodup ∧
      (k.procs 1).pageTable ∈ ps ∧ (k'.procs 1).pageTable = 0 := by
  obtain ⟨k, F, hboot, hb, -, -⟩ := exists_booted .kernelMap fun _ => 0
  have hl := hb.live_shell
  have hpt := hb.full 1 hl
  have hp := hb.proc 1 hl
  have hfree : k.phys.freeList < 2 ^ 64 := hb.ok.freeList_lt
  obtain ⟨k', ps, hok, hnd, hps, -, -, -, hprocs⟩ := processFreeUserspace_pushes
    ((hp.spaceOk hpt).treeOk fun v hv => (hp.map hpt).rwx hv) hpt (by rw [hb.heap 1 hl]; decide)
    (by rw [hb.globals.stackTop]; decide) hfree
  refine ⟨k, k', ps, hboot, hok, hnd, (hps _).mpr (.inl (isTable_root _ _)), ?_⟩
  rw [hprocs, Function.update_self]

end RiscvOs
