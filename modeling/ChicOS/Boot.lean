-- SUMMARY: Memory sizes: what handle_args accepts, and which of them the boot and later requests survive.
import ChicOS.Memory.Fragmentation
import ChicOS.Process.Process
import ChicOS.Semaphore.Lock

/-!
# Memory sizes

`handle_args` checks the size in bytes, the page table has whole pages, and the first
block is taken for the list of semaphores before anything else happens. A pool that is
too small for the list ends the boot with an error; in one that is large enough for it
but smaller than a page the boot looks for a page to replace.
-/

namespace ChicOS

/-- The `--mem-size` branch of `handle_args`, on the argument after it. -/
def memSizeArg (arg : List UInt8) : Except Stop UInt32 :=
  let val := UInt32.ofInt (CString.atoi arg)
  if val ≤ 0 ∨ 4 * MB ≤ val.toNat then .error .exit else .ok val

/-- Which sizes are accepted. -/
theorem memSizeArg_iff {memSize : UInt32} :
    (∃ arg, memSizeArg arg = .ok memSize) ↔ 0 < memSize.toNat ∧ memSize.toNat < 4 * MB := by
  have hzero (val : UInt32) : val ≤ 0 ↔ val.toNat = 0 := by
    rw [UInt32.le_iff_toNat_le, UInt32.toNat_zero, Nat.le_zero]
  constructor
  · rintro ⟨arg, h⟩
    unfold memSizeArg at h
    dsimp only at h
    split at h
    · cases h
    · rename_i hbounds
      cases h
      rw [not_or, hzero] at hbounds
      exact ⟨Nat.pos_of_ne_zero hbounds.1, Nat.not_le.mp hbounds.2⟩
  · rintro ⟨hpos, hmax⟩
    refine ⟨CString.printUnsigned memSize.toNat, ?_⟩
    have hatoi : CString.atoi (CString.printUnsigned memSize.toNat ++ []) = memSize.toNat :=
      CString.atoi_printUnsigned (Nat.lt_trans memSize.toNat_lt (by decide)) (by simp)
    rw [List.append_nil] at hatoi
    unfold memSizeArg
    rw [hatoi, ofInt_toNat]
    refine if_neg ?_
    rw [hzero]
    omega

/-- A request for so many bytes. -/
def Memory.request (m : Memory) (bytes : UInt32) : Except Stop Memory := m.call (.cAlloc bytes)

/-- The boot as far as the list of semaphores, and requests after it. -/
def bootAlloc (app : App) (pool : Bytes.Mem) (memSize : UInt32) (requests : List UInt32) :
    Except Stop Memory := do
  let app ← app.initSemaphores pool memSize
  Run.run Memory.request app.mem requests

/-! ## Requests -/

namespace Memory

variable {m : Memory}

/-- In a pool with a page a request is answered, or ends the program with an error. -/
theorem cAlloc_error {bytes : UInt32} {e : Stop} (h : m.HandIn) (hlock : 0 < m.memoryS)
    (herror : ChicOS.cAlloc m bytes = .error e) : e = .exit := by
  by_cases hbytes : bytes = 0
  · rw [ChicOS.cAlloc, if_pos hbytes] at herror
    cases herror
  by_cases hsize : m.size ≤ bytes.toNat
  · rw [ChicOS.cAlloc, if_neg hbytes, if_pos hsize] at herror
    cases herror
  have hattempt := cAlloc_attempt h hlock hbytes (Nat.not_le.mp hsize)
  rw [herror] at hattempt
  cases hattempt
  rfl

/-- A pool with a page, between calls. -/
structure Booted (m : Memory) : Prop extends Ready m where
  page : 0 < m.pt.len

theorem Booted.request {m' : Memory} {bytes : UInt32} (hboot : m.Booted)
    (h : m.request bytes = .ok m') : m'.Booted :=
  ⟨hboot.toReady.call h, (KeepsHand.call h).len ▸ hboot.page⟩

theorem Booted.request_error {bytes : UInt32} {e : Stop} (hboot : m.Booted)
    (herror : m.request bytes = .error e) : e = .exit := by
  rcases Except.bind_eq_error.mp herror with h | ⟨r, -, h⟩
  · exact cAlloc_error (hboot.handIn hboot.page) hboot.lock h
  · cases h

end Memory

/-! ## Booting -/

section

variable {app : App} {pool : Bytes.Mem} {memSize : UInt32}

theorem initMem_size (hmax : memSize.toNat < 4 * MB) : (initMem pool memSize).size = memSize.toNat :=
  if_neg (Nat.not_le.mpr hmax)

theorem initMem_len (hmax : memSize.toNat < 4 * MB) :
    (initMem pool memSize).pt.len = memSize.toNat / PAGE_SIZE :=
  congrArg (· / PAGE_SIZE) (@initMem_size pool memSize hmax)

theorem initSemaphores_error {e : Stop} (h : app.initSemaphores pool memSize = .error e) :
    e = .exit ∨ cAlloc (initMem pool memSize) sizeofSemaphoreList = .error e := by
  rcases Except.bind_eq_error.mp h with h | ⟨st, -, h⟩
  · rcases Except.bind_eq_error.mp h with h | ⟨⟨p, mem⟩, -, h⟩
    · exact .inr h
    · dsimp only at h
      split at h
      · cases h
        exact .inl rfl
      · cases h
  · cases h

theorem initSemaphores_mem {app' : App} (h : app.initSemaphores pool memSize = .ok app') :
    (initMem pool memSize).request sizeofSemaphoreList = .ok app'.mem := by
  obtain ⟨st, hlist, hok⟩ := Except.bind_eq_ok.mp h
  cases hok
  obtain ⟨⟨p, mem⟩, halloc, hst⟩ := Except.bind_eq_ok.mp hlist
  dsimp only at hst
  split at hst
  · cases hst
  · cases hst
    exact Except.bind_eq_ok.mpr ⟨(p, mem), halloc, rfl⟩

/-- A pool too small for the list ends the boot with an error. -/
theorem bootAlloc_small {requests : List UInt32} (hmax : memSize.toNat < 4 * MB)
    (hsmall : memSize.toNat ≤ sizeofSemaphoreList.toNat) :
    bootAlloc app pool memSize requests = .error .exit := by
  have hrefused : cAlloc (initMem pool memSize) sizeofSemaphoreList
      = .ok (0, initMem pool memSize) := by
    unfold cAlloc
    rw [if_neg (by decide), if_pos (by rwa [initMem_size hmax])]
  have hlist : initSemaphoreList { app.toStore with mem := initMem pool memSize } = .error .exit := by
    unfold initSemaphoreList
    rw [hrefused]
    rfl
  unfold bootAlloc App.initSemaphores
  rw [hlist]
  rfl

/-- With room for the list, but none for a page, `second_chance` looks at a page. -/
theorem bootAlloc_no_page {requests : List UInt32} (hroom : sizeofSemaphoreList.toNat < memSize.toNat)
    (hpage : memSize.toNat < PAGE_SIZE) :
    bootAlloc app pool memSize requests = .error .outOfBounds := by
  have hmax : memSize.toNat < 4 * MB := Nat.lt_trans hpage (by decide)
  have hlen : (initMem pool memSize).pt.len = 0 := by
    rw [initMem_len hmax]
    exact Nat.div_eq_of_lt hpage
  have hscan : secondChance (initMem pool memSize) = .error .outOfBounds := by
    have hpages : (initMem pool memSize).pt.pages[(initMem pool memSize).hand]? = none := by
      rw [List.getElem?_eq_none_iff, initMem_length, hlen]
      exact Nat.zero_le _
    have hwait : (initMem pool memSize).wait = .ok { initMem pool memSize with memoryS := 0 } := rfl
    unfold secondChance
    rw [hwait, Except.ok_bind_run, secondChanceLoop]
    dsimp only
    rw [hpages]
  have halloc : cAlloc (initMem pool memSize) sizeofSemaphoreList = .error .outOfBounds := by
    have hfew : ¬ numPages sizeofSemaphoreList ≤ (initMem pool memSize).pt.freePageNum := by
      have hfree : (initMem pool memSize).pt.freePageNum = 0 := hlen
      have hpos := (numPages_usable sizeofSemaphoreList).1
      omega
    unfold cAlloc
    rw [if_neg (by decide), if_neg (by rw [initMem_size hmax]; omega)]
    dsimp only
    rw [replacePages, if_neg hfew, hscan]
    rfl
  have hlist : initSemaphoreList { app.toStore with mem := initMem pool memSize }
      = .error .outOfBounds := by
    unfold initSemaphoreList
    rw [halloc]
    rfl
  unfold bootAlloc App.initSemaphores
  rw [hlist]
  rfl

theorem bootAlloc_error {requests : List UInt32} {e : Stop} (hmax : memSize.toNat < 4 * MB)
    (hpage : PAGE_SIZE ≤ memSize.toNat) (h : bootAlloc app pool memSize requests = .error e) :
    e = .exit := by
  have hboot : (initMem pool memSize).Booted := by
    refine ⟨initMem_ready pool memSize, ?_⟩
    rw [initMem_len hmax]
    exact Nat.div_pos hpage (by decide)
  rcases Except.bind_eq_error.mp h with h | ⟨app', hinit, h⟩
  · rcases initSemaphores_error h with hexit | h
    · exact hexit
    · exact Memory.cAlloc_error (hboot.handIn hboot.page) hboot.lock h
  · exact Run.run_error Memory.Booted Memory.Booted.request Memory.Booted.request_error
      (hboot.request (initSemaphores_mem hinit)) h

end

/-- A size that `handle_args` accepts is safe to boot and to use just if it is too small
for the list of semaphores, which ends the boot, or there is a page in it. -/
theorem boot_safe {arg : List UInt8} {memSize : UInt32} (harg : memSizeArg arg = .ok memSize)
    (app : App) (pool : Bytes.Mem) (requests : List UInt32) :
    (∀ e, bootAlloc app pool memSize requests = .error e → e = .exit) ↔
      memSize.toNat ≤ sizeofSemaphoreList.toNat ∨ PAGE_SIZE ≤ memSize.toNat := by
  obtain ⟨-, hmax⟩ := memSizeArg_iff.mp ⟨arg, harg⟩
  rcases Nat.lt_or_ge sizeofSemaphoreList.toNat memSize.toNat with hroom | hsmall
  · rcases Nat.lt_or_ge memSize.toNat PAGE_SIZE with hless | hpage
    · refine iff_of_false (fun hsafe => ?_) (by omega)
      cases hsafe .outOfBounds (bootAlloc_no_page hroom hless)
    · exact iff_of_true (fun e => bootAlloc_error hmax hpage) (.inr hpage)
  · refine iff_of_true (fun e he => ?_) (.inl hsmall)
    rw [bootAlloc_small hmax hsmall] at he
    cases he
    rfl

/-- A pool of four pages, with two requests after the boot. -/
theorem boot_safe_four_pages :
    memSizeArg (ascii "4096") = .ok 4096 ∧
      ∀ e, bootAlloc (App.zero Heap.zero fun _ => none) (fun _ => 0) 4096 [100, 5000] = .error e →
        e = .exit :=
  ⟨by decide, (@boot_safe (ascii "4096") 4096 (by decide) _ _ _).mpr (.inr (by decide))⟩

/-- A thousand bytes are accepted, and have no page. -/
theorem boot_not_always_safe :
    ¬ ∀ (arg : List UInt8) (memSize : UInt32) (app : App) (pool : Bytes.Mem)
      (requests : List UInt32), memSizeArg arg = .ok memSize →
      ∀ e, bootAlloc app pool memSize requests = .error e → e = .exit := by
  intro h
  have hcrash : bootAlloc (App.zero Heap.zero fun _ => none) (fun _ => 0) 1000 [] = .error .outOfBounds :=
    bootAlloc_no_page (by decide) (by decide)
  cases h (ascii "1000") 1000 _ (fun _ => 0) [] (by decide) .outOfBounds hcrash

end ChicOS
