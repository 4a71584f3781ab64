import Xv6.Vm.Image

/-!
# The bytes of a loaded image

A program header is read where `elf.phoff` says, and the segment it describes
is laid over what the segments before it have left.  An address therefore
holds the byte of the last segment that covers it, and zero if there is none.
-/

namespace Xv6.Vm

open Lib
open Fs (Bytes patch patch_inside patch_outside zeroes)

/-- The file has bytes of the segment for the address. -/
def Proghdr.covers (ph : Proghdr) (va : Nat) : Bool :=
  ph.type = elfProgLoad ∧ ph.vaddr ≤ va ∧ va < ph.vaddr + ph.filesz

/-- The byte of the last segment that covers the address, or zero. -/
def imageByte (file : List UInt8) (headers : List Proghdr) (va : Nat) :
    UInt8 :=
  match headers.reverse.find? (·.covers va) with
  | some ph => file.getD (ph.off + (va - ph.vaddr)) 0
  | none => 0

/-- What `exec` has checked about a segment that it has loaded. -/
structure Proghdr.Loadable (file : List UInt8) (ph : Proghdr) : Prop where
  short : ph.filesz ≤ ph.memsz
  aligned : ph.vaddr % pgsize = 0
  below : ph.vaddr + ph.memsz < kernbase
  within : 0 < ph.filesz → ph.off + ph.filesz ≤ file.length

/-- The headers are those that the file has from an offset on. -/
structure HeadersAt (file : List UInt8) (off : Nat) (headers : List Proghdr) :
    Prop where
  read : ∀ i ph, headers[i]? = some ph →
    (readRecord file (off + i * proghdrSize) proghdrSize).map
      Proghdr.decode = some ph

/-- The segments are loadable and end below a size. -/
def LoadedBelow (file : List UInt8) (headers : List Proghdr) (sz : Nat) :
    Prop :=
  ∀ ph ∈ headers, ph.type = elfProgLoad →
    ph.Loadable file ∧ ph.vaddr + ph.memsz ≤ sz

theorem imageByte_snoc (file : List UInt8) (headers : List Proghdr)
    (ph : Proghdr) (va : Nat) :
    imageByte file (headers ++ [ph]) va =
      if ph.covers va then file.getD (ph.off + (va - ph.vaddr)) 0
      else imageByte file headers va := by
  unfold imageByte
  rw [List.reverse_append, List.reverse_singleton, List.singleton_append,
    List.find?_cons]
  cases ph.covers va with
  | true => rfl
  | false => rfl

theorem imageByte_skip {file : List UInt8} {headers : List Proghdr}
    {ph : Proghdr} (other : ph.type ≠ elfProgLoad) :
    imageByte file (headers ++ [ph]) = imageByte file headers := by
  funext va
  rw [imageByte_snoc, if_neg]
  simp [Proghdr.covers, other]

namespace LoadedBelow

variable {file : List UInt8} {headers : List Proghdr} {ph : Proghdr}
  {sz sz' : Nat}

theorem mono (loaded : LoadedBelow file headers sz) (le : sz ≤ sz') :
    LoadedBelow file headers sz' := by
  intro ph member load
  obtain ⟨loadable, below⟩ := loaded ph member load
  exact ⟨loadable, below.trans le⟩

theorem snoc (loaded : LoadedBelow file headers sz)
    (last : ph.type = elfProgLoad → ph.Loadable file ∧
      ph.vaddr + ph.memsz ≤ sz) : LoadedBelow file (headers ++ [ph]) sz := by
  intro ph' member
  rcases List.mem_append.mp member with member | member
  · exact loaded ph' member
  · rw [List.mem_singleton.mp member]
    exact last

/-- No segment covers an address behind the image. -/
theorem imageByte_above (loaded : LoadedBelow file headers sz) {va : Nat}
    (above : sz ≤ va) : imageByte file headers va = 0 := by
  unfold imageByte
  split
  · rename_i ph found
    have member := List.mem_reverse.mp (List.mem_of_find?_eq_some found)
    have covers := List.find?_some found
    simp only [Proghdr.covers, decide_eq_true_eq] at covers
    obtain ⟨loadable, below⟩ := loaded ph member covers.1
    have short := loadable.short
    omega
  · rfl

end LoadedBelow

theorem HeadersAt.cons {file : List UInt8} {off : Nat} {headers : List Proghdr}
    {bytes : Nat → UInt8}
    (read : readRecord file off proghdrSize = some bytes)
    (rest : HeadersAt file (off + proghdrSize) headers) :
    HeadersAt file off (Proghdr.decode bytes :: headers) where
  read i ph found := by
    cases i with
    | zero =>
        cases found
        rw [Nat.zero_mul, Nat.add_zero, read]
        rfl
    | succ i =>
        have place : off + (i + 1) * proghdrSize =
            off + proghdrSize + i * proghdrSize := by
          rw [Nat.add_mul]
          omega
        rw [place]
        exact rest.read i ph found

/-- `readi` checks that the sum of offset and count does not wrap. -/
theorem readFile_some {file bytes : List UInt8} {off n : Nat}
    (small : off < 2 ^ 32) (count : n < 2 ^ 32)
    (read : readFile file off n = some bytes) :
    off ≤ file.length ∧ off + n < 2 ^ 32 ∧
      bytes = (file.drop off).take n := by
  unfold readFile at read
  split at read
  · cases read
  · rename_i checked
    cases read
    refine ⟨by omega, ?_, rfl⟩
    unfold uintAdd at checked
    omega

theorem getD_taken {file : List UInt8} {off n i : Nat} (inside : i < n) :
    ((file.drop off).take n).getD i 0 = file.getD (off + i) 0 := by
  rw [List.getD_eq_getElem?_getD, List.getD_eq_getElem?_getD,
    List.getElem?_take_of_lt inside, List.getElem?_drop]

theorem readRecord_some {file : List UInt8} {off n : Nat}
    {bytes : Nat → UInt8} (small : off < 2 ^ 32) (count : n < 2 ^ 32)
    (read : readRecord file off n = some bytes) : off + n < 2 ^ 32 := by
  unfold readRecord at read
  split at read
  · cases read
  · rename_i found
    exact (readFile_some small count found).2.1

/-! ## The bytes of an address space -/

/-- The pages of an address space hold given bytes. -/
def Filled (byte : Nat → UInt8) (c sz : Nat) (m : Memory) : Prop :=
  ∀ n j, n < pageCount sz → j < pgsize →
    m.pages (pageAt m c n) j = byte (n * pgsize + j)

/-- Bytes laid over others. -/
def overlay (byte : Nat → UInt8) (start size : Nat) (source : Nat → UInt8)
    (va : Nat) : UInt8 :=
  if start ≤ va ∧ va < start + size then source (va - start) else byte va

namespace Image

variable {k : Kernel} {dirs : Finset Nat} {rest : Holder → Nat}
  {c sz n : Nat} {m m' : Memory} {byte byte' : Nat → UInt8}

/-- A page of the image is written. -/
theorem filled_write (image : Image k dirs rest c sz m m')
    (filled : Filled byte c sz m') (below : n < pageCount sz) {page : Bytes}
    (own : ∀ j, j < pgsize → page j = byte' (n * pgsize + j))
    (others : ∀ l j, l ≠ n → j < pgsize →
      byte' (l * pgsize + j) = byte (l * pgsize + j)) :
    Filled byte' c sz (m'.write (pageAt m' c n) page) := by
  intro l j less inside
  have live : c ∈ insert c dirs := Finset.mem_insert_self c dirs
  have last := pageCount_le (le_of_lt image.small)
  have frame : pageAt (m'.write (pageAt m' c n) page) c l = pageAt m' c l :=
    congrArg frameOf (image.pteAt_page below page (lt_allPages (by omega)))
  rw [frame]
  unfold Memory.write
  dsimp only
  by_cases same : l = n
  · rw [same, Function.update_self]
    exact own j inside
  · have other : pageAt m' c l ≠ pageAt m' c n := by
      intro equal
      exact same (image.accounted.page_inj live live (by omega) (by omega)
        (image.mapped l less).1 equal).2
    rw [Function.update_of_ne other, others l j same inside]
    exact filled l j less inside

/-- The image grows by pages of zeros, and the others stay as they are. -/
theorem allocuvm {newsz : Nat} (fresh : c ∉ dirs) (nothing : rest .hand = 0)
    (image : Image k dirs rest c sz m m') :
    wp (Vm.allocuvm k c sz newsz)
      (fun sz' m'' => (sz' = 0 ∧ Image k dirs rest c sz m m'' ∧
          (kernbase ≤ newsz ∨ reserve m' c ≤
            npdentries + (pageCount newsz - pageCount sz))) ∨
        (newsz < kernbase ∧ sz' = max sz newsz ∧
          Image k dirs rest c sz' m m'' ∧
          reserve m'' c + (pageCount sz' - pageCount sz) = reserve m' c ∧
          ∀ byte, Filled byte c sz m' →
            (∀ va, pageCount sz * pgsize ≤ va → byte va = 0) →
            Filled byte c sz' m''))
      (fun _ => False) m' := by
  have live : c ∈ insert c dirs := Finset.mem_insert_self c dirs
  have absent : newsz < kernbase → ∀ l, pageCount sz ≤ l →
      l < pageCount newsz → pteAt m' c l = 0 := by
    intro small l first second
    have last := pageCount_le (le_of_lt small)
    exact image.absent l first (by omega)
  apply (allocuvm_spec live nothing image.accounted absent).imp
  intro sz' m'' outcome
  rcases outcome with ⟨large, zero, same⟩ | ⟨small, shrinks, equal, same⟩ |
    ⟨small, grows, grown⟩
  · subst m''
    exact Or.inl ⟨zero, image, Or.inl large⟩
  · subst m''
    have number : sz' = max sz newsz := by omega
    have equal' : sz' = sz := equal
    subst sz'
    exact Or.inr ⟨small, number, image, by omega, fun _ filled _ => filled⟩
  · have last := pageCount_le (le_of_lt small)
    have ordered := pageCount_mono grows
    have others : ∀ e ∈ dirs, Same m m'' e := fun e live' =>
      (image.others e live').trans (grown.change.same
        (Finset.mem_insert_of_mem live') image.accounted
        (ne_of_fresh fresh live'))
    have kernel := image.kernel.change grown.change fun l range => by omega
    rcases grown.outcome with ⟨equal, new, taken⟩ | ⟨zero, none, few⟩
    · subst sz'
      refine Or.inr ⟨small, by omega, ⟨grown.accounted, others, kernel, small,
        ?_, ?_⟩, taken, ?_⟩
      · intro l below
        by_cases old : l < pageCount sz
        · rw [grown.change.pte l (lt_allPages (by omega)) (by omega)]
          exact image.mapped l old
        · obtain ⟨f, area, _, pte, _⟩ := new l (by omega) below
          rw [pte, present_entry area.lt (by decide),
            user_entry area.lt (by decide)]
          exact ⟨rfl, rfl⟩
      · intro l above inside
        rw [grown.change.pte l (lt_allPages inside) (by omega)]
        exact image.absent l (by omega) inside
      · intro byte filled zero n j below inside
        by_cases old : n < pageCount sz
        · have kept : ¬ (pageCount sz ≤ n ∧ n < pageCount newsz) := by omega
          have frame : pageAt m'' c n = pageAt m' c n :=
            congrArg frameOf
              (grown.change.pte n (lt_allPages (by omega)) kept)
          rw [frame, grown.change.content live (by omega) kept
            (image.page_ne_zero old)]
          exact filled n j old inside
        · obtain ⟨f, area, _, pte, content⟩ := new n (by omega) below
          have above : pageCount sz * pgsize ≤ n * pgsize :=
            Nat.mul_le_mul_right pgsize (by omega)
          rw [Fresh.page area pte, content, zero _ (by omega)]
          rfl
    · refine Or.inl ⟨zero, ?_, Or.inr few⟩
      refine ⟨grown.accounted, others, kernel, image.small, ?_, ?_⟩
      · intro l below
        rw [grown.change.pte l (lt_allPages (by omega)) (by omega)]
        exact image.mapped l below
      · intro l above inside
        by_cases new : l < pageCount newsz
        · exact none l above new
        · rw [grown.change.pte l (lt_allPages inside) (by omega)]
          exact image.absent l above inside

/-- One more page of bytes is laid over the image. -/
theorem filled_page (image : Image k dirs rest c sz m m') {q j count : Nat}
    {source taken : Nat → UInt8} (below : q + j < pageCount sz)
    (short : count ≤ pgsize)
    (same : ∀ l, l < count → taken l = source (j * pgsize + l))
    (filled : Filled (overlay byte (q * pgsize) (j * pgsize) source) c sz
      m') :
    Filled (overlay byte (q * pgsize) (j * pgsize + count) source) c sz
      (m'.write (pageAt m' c (q + j))
        (patch (m'.pages (pageAt m' c (q + j))) 0 count taken)) := by
  have start : (q + j) * pgsize = q * pgsize + j * pgsize := Nat.add_mul ..
  apply image.filled_write filled below
  · intro l less
    by_cases early : l < count
    · have inside : q * pgsize ≤ (q + j) * pgsize + l ∧
          (q + j) * pgsize + l < q * pgsize + (j * pgsize + count) := by
        omega
      have place : (q + j) * pgsize + l - q * pgsize = j * pgsize + l := by
        omega
      unfold overlay patch
      rw [if_pos (by omega), if_pos inside, place, Nat.sub_zero,
        same l early]
    · have behind : ¬ (q * pgsize ≤ (q + j) * pgsize + l ∧
          (q + j) * pgsize + l < q * pgsize + (j * pgsize + count)) := by
        omega
      rw [patch_outside (by omega), filled (q + j) l below less]
      unfold overlay
      rw [if_neg (by omega), if_neg behind]
  · intro l i different less
    have order : l * pgsize + pgsize ≤ (q + j) * pgsize ∨
        (q + j) * pgsize + pgsize ≤ l * pgsize := by
      rcases Nat.lt_or_gt_of_ne different with before | after
      · left
        rw [← Nat.succ_mul]
        exact Nat.mul_le_mul_right pgsize before
      · right
        rw [← Nat.succ_mul]
        exact Nat.mul_le_mul_right pgsize after
    unfold overlay
    split
    · rw [if_pos (by omega)]
    · rw [if_neg (by omega)]

/-- `loaduvm` lays the bytes of the file over the image, page by page. -/
theorem loaduvmLoop (fresh : c ∉ dirs) {q size offset : Nat}
    {file : List UInt8} (inside : q * pgsize + size ≤ sz) (fuel : Nat) :
    ∀ {j : Nat} {m' : Memory}, 0 < fuel → pageCount size < j + fuel →
      Image k dirs rest c sz m m' →
      offset + min size (j * pgsize) < 2 ^ 32 →
      (0 < min size (j * pgsize) →
        offset + min size (j * pgsize) ≤ file.length) →
      Filled (overlay byte (q * pgsize) (min size (j * pgsize))
        fun i => file.getD (offset + i) 0) c sz m' →
      wp (Vm.loaduvmLoop c (q * pgsize) file offset size fuel (j * pgsize))
        (fun loaded m'' => Image k dirs rest c sz m m'' ∧ (loaded = true →
          (0 < size → offset + size ≤ file.length) ∧
          Filled (overlay byte (q * pgsize) size
            fun i => file.getD (offset + i) 0) c sz m''))
        (fun _ => False) m' := by
  induction fuel with
  | zero =>
      intro j m' positive
      exact absurd positive (lt_irrefl 0)
  | succ fuel induction =>
      intro j m' _ enough image unwrapped within filled
      have small := image.small
      unfold Vm.loaduvmLoop
      by_cases more : j * pgsize < size
      · have page : uintAdd (q * pgsize) (j * pgsize) = (q + j) * pgsize := by
          rw [Nat.add_mul]
          apply uintAdd_of_lt
          unfold kernbase at small
          omega
        have below : q + j < pageCount sz := by
          rw [lt_pageCount, Nat.add_mul]
          omega
        have last := pageCount_le (le_of_lt small)
        have below' : j < pageCount size := lt_pageCount.mpr more
        have done : min size (j * pgsize) = j * pgsize :=
          min_eq_right (le_of_lt more)
        rw [done] at unwrapped within filled
        have place : uintAdd offset (j * pgsize) = offset + j * pgsize :=
          uintAdd_of_lt unwrapped
        rw [if_pos more, page, wp_bind]
        apply image.walkpgdir below
        intro t i loaded
        dsimp only
        rw [wp_bind, wp_getEntry, loaded]
        have frame : frame (pteAt m' c (q + j)) = pageAt m' c (q + j) :=
          (frameOf_of_present (image.mapped _ below).1).symm
        rw [frame, place]
        generalize count : min (size - j * pgsize) pgsize = n
        cases read : readFile file (offset + j * pgsize) n with
        | none =>
            dsimp only
            rw [wp_pure]
            exact ⟨image, nofun⟩
        | some bytes =>
            obtain ⟨start, sum, equal⟩ := readFile_some unwrapped
              (by unfold pgsize at count; omega) read
            dsimp only
            rw [wp_bind, wp_get, wp_bind, wp_setPage]
            by_cases full : bytes.length = n
            · have next : min size ((j + 1) * pgsize) = j * pgsize + n := by
                rw [Nat.add_mul]
                omega
              have length : offset + (j * pgsize + n) ≤ file.length := by
                rw [equal, List.length_take, List.length_drop] at full
                omega
              rw [if_pos full, next_page (by omega), full]
              apply induction (by omega) (by omega)
                (image.write fresh below _)
              · rw [next]
                omega
              · intro _
                rw [next]
                exact length
              · rw [next]
                apply image.filled_page below (by omega) _ filled
                intro l less
                rw [equal, getD_taken less, Nat.add_assoc]
            · rw [if_neg full, wp_pure]
              exact ⟨image.write fresh below _, nofun⟩
      · have done : min size (j * pgsize) = size := by omega
        rw [done] at filled within
        rw [if_neg more, wp_pure]
        exact ⟨image, fun _ => ⟨within, filled⟩⟩

theorem loaduvm (fresh : c ∉ dirs) {addr size offset : Nat}
    {file : List UInt8} (aligned : addr % pgsize = 0)
    (inside : addr + size ≤ sz) (small : offset < 2 ^ 32)
    (image : Image k dirs rest c sz m m') (filled : Filled byte c sz m') :
    wp (Vm.loaduvm c addr file offset size)
      (fun loaded m'' => Image k dirs rest c sz m m'' ∧ (loaded = true →
        (0 < size → offset + size ≤ file.length) ∧
        Filled (overlay byte addr size fun i => file.getD (offset + i) 0) c
          sz m''))
      (fun _ => False) m' := by
  obtain ⟨q, rfl⟩ : ∃ q, addr = q * pgsize :=
    ⟨addr / pgsize, by unfold pgsize at *; omega⟩
  have enough : pageCount size < size / pgsize + 2 := by
    unfold pageCount pgsize
    omega
  have nothing : overlay byte (q * pgsize) 0
      (fun i => file.getD (offset + i) 0) = byte := by
    funext va
    unfold overlay
    rw [if_neg (by omega)]
  unfold Vm.loaduvm
  rw [if_pos aligned]
  have none : min size (0 * pgsize) = 0 := by
    rw [Nat.zero_mul, Nat.min_zero]
  have start : Filled (overlay byte (q * pgsize) (min size (0 * pgsize))
      fun i => file.getD (offset + i) 0) c sz m' := by
    rw [none, nothing]
    exact filled
  have loop := loaduvmLoop fresh inside (size / pgsize + 2)
    (by omega) (by omega) image (by rwa [none]) (by simp) start
  rwa [Nat.zero_mul] at loop

end Image

/-- The image of the segments that have been loaded so far. -/
structure Laid (k : Kernel) (dirs : Finset Nat) (rest : Holder → Nat)
    (c : Nat) (m : Memory) (file : List UInt8) (headers : List Proghdr)
    (sz : Nat) (m' : Memory) : Prop where
  image : Image k dirs rest c sz m m'
  loaded : LoadedBelow file headers sz
  filled : Filled (imageByte file headers) c sz m'

namespace Laid

variable {k : Kernel} {dirs : Finset Nat} {rest : Holder → Nat} {c : Nat}
  {m : Memory} {file : List UInt8}

theorem of_setup {m' : Memory} (setup : Setup k dirs rest m c m') :
    Laid k dirs rest c m file [] 0 m' := by
  refine ⟨.of_setup setup, fun _ member => absurd member List.not_mem_nil, ?_⟩
  intro n j below
  exact absurd below (Nat.not_lt_zero n)

/-- There is nothing behind the segments. -/
theorem zero {headers : List Proghdr} {sz : Nat} {m' : Memory}
    (laid : Laid k dirs rest c m file headers sz m') (va : Nat)
    (above : pageCount sz * pgsize ≤ va) : imageByte file headers va = 0 := by
  apply laid.loaded.imageByte_above
  unfold pageCount pgsize at above
  omega

variable (fresh : c ∉ dirs) (nothing : rest .hand = 0)

include fresh nothing

theorem loadSegment {headers : List Proghdr} {sz : Nat} {m' : Memory}
    (laid : Laid k dirs rest c m file headers sz m') (ph : Proghdr)
    (vaddr : ph.vaddr < 2 ^ 32) (memsz : ph.memsz < 2 ^ 32)
    (off : ph.off < 2 ^ 32) :
    wp (Vm.loadSegment k c file sz ph)
      (fun result m'' => match result with
        | some sz' => Laid k dirs rest c m file (headers ++ [ph]) sz' m''
        | none => ∃ sz', Image k dirs rest c sz' m m'')
      (fun _ => False) m' := by
  have image := laid.image
  unfold Vm.loadSegment
  by_cases load : ph.type = elfProgLoad
  · rw [if_neg (not_not.mpr load)]
    split
    · rw [wp_pure]
      exact ⟨sz, image⟩
    · rename_i short
      split
      · rw [wp_pure]
        exact ⟨sz, image⟩
      · rename_i unwrapped
        have sum : uintAdd ph.vaddr ph.memsz = ph.vaddr + ph.memsz := by
          unfold uintAdd at *
          omega
        rw [sum]
        apply wp.bind (image.allocuvm fresh nothing)
        intro sz' m'' outcome
        rcases outcome with ⟨zero, image', _⟩ |
          ⟨below, number, image', _, filled⟩
        · rw [if_pos zero, wp_pure]
          exact ⟨sz, image'⟩
        · by_cases failed : sz' = 0
          · rw [if_pos failed, wp_pure]
            exact ⟨sz', image'⟩
          · rw [if_neg failed]
            split
            · rw [wp_pure]
              exact ⟨sz', image'⟩
            · rename_i aligned
              apply wp.bind (image'.loaduvm fresh (not_not.mp aligned)
                (by omega) off (filled _ laid.filled laid.zero))
              intro result m₃ ⟨image₃, success⟩
              rw [wp_pure]
              cases result with
              | false => exact ⟨sz', image₃⟩
              | true =>
                  obtain ⟨within, filled₃⟩ := success rfl
                  refine ⟨image₃, ?_, ?_⟩
                  · apply (laid.loaded.mono (by omega)).snoc
                    intro _
                    exact ⟨⟨by omega, not_not.mp aligned, below, within⟩,
                      by omega⟩
                  · have same : overlay (imageByte file headers) ph.vaddr
                        ph.filesz (fun i => file.getD (ph.off + i) 0) =
                        imageByte file (headers ++ [ph]) := by
                      funext va
                      rw [imageByte_snoc]
                      unfold overlay Proghdr.covers
                      simp only [load, true_and, decide_eq_true_eq]
                    rw [← same]
                    exact filled₃
  · rw [if_pos load, wp_pure]
    refine ⟨image, laid.loaded.snoc fun wrong => absurd wrong load, ?_⟩
    rw [imageByte_skip load]
    exact laid.filled

theorem loadSegments (count : Nat) :
    ∀ {off sz : Nat} {m' : Memory} {headers : List Proghdr}, off < 2 ^ 32 →
      Laid k dirs rest c m file headers sz m' →
      wp (Vm.loadSegments k c file count off sz)
        (fun result m'' => match result with
          | some sz' => ∃ more, more.length = count ∧
              HeadersAt file off more ∧
              Laid k dirs rest c m file (headers ++ more) sz' m''
          | none => ∃ sz', Image k dirs rest c sz' m m'')
        (fun _ => False) m' := by
  induction count with
  | zero =>
      intro off sz m' headers _ laid
      unfold Vm.loadSegments
      rw [wp_pure]
      refine ⟨[], rfl, ⟨fun i ph found => by cases found⟩, ?_⟩
      rw [List.append_nil]
      exact laid
  | succ count induction =>
      intro off sz m' headers small laid
      unfold Vm.loadSegments
      cases read : readRecord file off proghdrSize with
      | none =>
          dsimp only
          rw [wp_pure]
          exact ⟨sz, laid.image⟩
      | some bytes =>
          have sum := readRecord_some small (by decide) read
          dsimp only
          apply wp.bind (laid.loadSegment fresh nothing (Proghdr.decode bytes)
            (UInt32.toNat_lt _) (UInt32.toNat_lt _) (UInt32.toNat_lt _))
          intro result m'' outcome
          cases result with
          | none =>
              rw [wp_pure]
              exact outcome
          | some sz' =>
              dsimp only
              rw [uintAdd_of_lt sum]
              apply (induction sum outcome).imp
              intro result m₃ outcome'
              cases result with
              | none => exact outcome'
              | some sz'' =>
                  obtain ⟨more, length, table, laid'⟩ := outcome'
                  refine ⟨Proghdr.decode bytes :: more, by rw [List.length_cons,
                    length], table.cons read, ?_⟩
                  rw [← List.singleton_append, ← List.append_assoc]
                  exact laid'

end Laid

end Xv6.Vm
