import CBlockchain.TransferInvariant

/-! Every step of the transfer keeps the joint invariant. -/
namespace CBlockchain.Transfer
open ConnectionHandlers DataHandlers EventLoop ReceiveLoop RequestData Serdes
variable {pf : Platform} {net : Net} {fd : Fd}

theorem forall_mem_replace {α : Type*} {P : α → Prop} {x y : α} {l₁ l₂ : List α}
    (h : ∀ z ∈ l₁ ++ x :: l₂, P z) (hy : P y) : ∀ z ∈ l₁ ++ y :: l₂, P z := by
  obtain ⟨h₁, h₂⟩ := List.forall_mem_append.mp h
  exact List.forall_mem_append.mpr ⟨h₁, List.forall_mem_cons.mpr ⟨hy, (List.forall_mem_cons.mp h₂).2⟩⟩

theorem forall_mem_rest {α : Type*} {P : α → Prop} {x : α} {l₁ l₂ : List α}
    (h : ∀ z ∈ l₁ ++ x :: l₂, P z) : ∀ z ∈ l₁ ++ l₂, P z := by
  obtain ⟨h₁, h₂⟩ := List.forall_mem_append.mp h
  exact List.forall_mem_append.mpr ⟨h₁, (List.forall_mem_cons.mp h₂).2⟩

/-- A step that touches one socket number only. -/
theorem Sound.at_fd (hs : Sound pf net) {net' : Net} (fd₀ : Fd) (hready : Ready net'.server.cbuf)
    (hgrow : Grows net.server.cbuf net'.server.cbuf)
    (hroots : ∀ e ∈ net.roots, e ∈ net'.roots)
    (hnew : ∀ e ∈ net'.roots, e ∈ net.roots ∨ IsBlockRoot pf net'.server.cbuf e.2)
    (hlinks : ∀ fd ≠ fd₀, net'.links fd = net.links fd)
    (hkeep : net.links fd₀ ≠ none → net'.links fd₀ ≠ none)
    (hops : ∀ fd ≠ fd₀, net'.ops fd = net.ops fd)
    (hcount : ∀ fd ≠ fd₀, net'.server.befferSendedN fd = net.server.befferSendedN fd)
    (hat : FdOk pf.codec net'.server.cbuf fd₀ (net'.Finished fd₀) (net.Other fd₀)
      (net'.server.befferSendedN fd₀) (net'.ops fd₀) (net'.links fd₀)) : Sound pf net' where
  ready := hready
  fd := by
    intro fd
    have hother : net.Other fd → net'.Other fd := by
      rintro ⟨fd', hne, hsome⟩
      refine ⟨fd', hne, ?_⟩
      by_cases h : fd' = fd₀
      · rw [h] at hsome ⊢
        exact hkeep hsome
      · rw [hlinks fd' h]
        exact hsome
    by_cases h : fd = fd₀
    · subst h
      exact hat.grow (Grows.refl _) id hother
    · have hfin : net.Finished fd → net'.Finished fd := fun ⟨hash, hmem⟩ => ⟨hash, hroots _ hmem⟩
      have hold := (hs.fd fd).grow hgrow hfin hother
      rw [Net.Ok, hlinks fd h, hops fd h, hcount fd h]
      exact hold
  roots := by
    intro e he
    rcases hnew e he with he | he
    · exact (hs.roots e he).grow hgrow
    · exact he

theorem Sound.off_server (hs : Sound pf net) (fd₀ : Fd) {ops : List Op} {l : Option Link}
    (hkeep : net.links fd₀ ≠ none → l ≠ none)
    (hat : FdOk pf.codec net.server.cbuf fd₀ (net.Finished fd₀) (net.Other fd₀)
      (net.server.befferSendedN fd₀) ops l) :
    Sound pf { net with
      ops := Function.update net.ops fd₀ ops, links := Function.update net.links fd₀ l } := by
  refine hs.at_fd fd₀ hs.ready (Grows.refl _) (fun _ h => h) (fun _ h => Or.inl h)
    (fun _ h => Function.update_of_ne h _ _) (fun h => ?_) (fun _ h => Function.update_of_ne h _ _)
    (fun _ _ => rfl) ?_
  · simp only [Function.update_self]
    exact hkeep h
  · simp only [Function.update_self]
    exact hat

theorem Sound.on_link (hs : Sound pf net) {l : Link}
    (hat : FdOk pf.codec net.server.cbuf fd (net.Finished fd) (net.Other fd)
      (net.server.befferSendedN fd) (net.ops fd) (some l)) :
    Sound pf { net with links := Function.update net.links fd (some l) } := by
  have h := hs.off_server fd (fun _ => by simp) hat
  rwa [Function.update_eq_self] at h

theorem Completes.keeps {l l' : Option Link} {sqe : Sqe} {cqe : Cqe} (h : Completes l sqe cqe l')
    (hl : l ≠ none) : l' ≠ none := by
  cases h <;> simp_all

theorem toInt_ne_zero {res : BitVec 32} {data : List UInt8} (hres : res.toInt = data.length)
    (hne : data ≠ []) : res ≠ 0 := by
  rintro rfl
  have hpos := List.length_pos_iff.mpr hne
  have hz : (0 : BitVec 32).toInt = 0 := rfl
  omega

theorem Reply.ne_nil {codec : Codec} {cbuf : CircBuf} {cl : Client} {b : ℕ} {g : List UInt8}
    (h : Reply codec cbuf cl b g) : g ≠ [] := by
  cases h <;> exact sendOnlyStatusCode_ne_nil _ _ _

/-- An awaited request that completes on an open connection without an incoming frame
is the send. -/
theorem Awaiting.post {ops l₁ l₂ : List Op} {sqe : Sqe} {cqe : Cqe} {link : Link} {l : Option Link}
    (h : Awaiting fd ops) (hops : ops = l₁ ++ .pending sqe :: l₂) (hopen : link.isOpen = true)
    (hc : Completes (some link) sqe cqe l) :
    (l = some link ∧ Awaiting fd (l₁ ++ .posted cqe :: l₂)) ∨
    ∃ (gs rest : List (List UInt8)) (res : BitVec 32),
      link.toServer = gs ++ rest ∧ gs ≠ [] ∧ l = some { link with toServer := rest } ∧
      res.toInt = (gs.flatten.length : ℤ) ∧
      l₁ ++ .posted cqe :: l₂ = [.posted ⟨makeRequestData fd .testResponse, res, gs.flatten⟩] := by
  have hnot : ¬ ClosedLink (some link) := fun hcl => by simp [hcl link rfl] at hopen
  cases h with
  | sending hne =>
    obtain ⟨rfl, heq, rfl⟩ := singleton_split hops
    cases heq
    cases hc with
    | sent _ hres => exact Or.inl ⟨rfl, .sent (toInt_ne_zero hres hne)⟩
    | unsent _ closed => exact absurd closed hnot
  | sent hres =>
    obtain ⟨-, heq, -⟩ := singleton_split hops
    cases heq
  | receiving =>
    obtain ⟨rfl, heq, rfl⟩ := singleton_split hops
    cases heq
    cases hc with
    | received next hne _ hres => exact Or.inr ⟨_, _, _, next, hne, rfl, hres, rfl⟩
    | ended closed => exact absurd closed hnot

theorem Closing.post {ops l₁ l₂ : List Op} {sqe : Sqe} {cqe : Cqe} {l l' : Option Link}
    (h : Closing fd ops) (hops : ops = l₁ ++ .pending sqe :: l₂) (hc : Completes l sqe cqe l') :
    l' = l ∧ Closing fd (l₁ ++ .posted cqe :: l₂) := by
  cases h with
  | pending =>
    obtain ⟨rfl, heq, rfl⟩ := singleton_split hops
    cases heq
    cases hc
    exact ⟨rfl, .posted _⟩
  | posted res => cases (singleton_split hops).2.1
  | handled => simp at hops

theorem LateOp.post {codec : Codec} {stored : ℕ} {sqe : Sqe} {cqe : Cqe} {link : Link}
    {l : Option Link} (h : LateOp codec fd stored (.pending sqe))
    (hframes : link.toServer = [] ∨ ∃ g, link.toServer = [g] ∧ LateFrame codec stored g)
    (hc : Completes (some link) sqe cqe l) :
    LateOp codec fd stored (.posted cqe) ∧ ∃ rest, l = some { link with toServer := rest } ∧
      (rest = [] ∨ ∃ g, rest = [g] ∧ LateFrame codec stored g) := by
  cases h with
  | sending data =>
    cases hc with
    | sent => exact ⟨.sent _, link.toServer, rfl, hframes⟩
    | unsent => exact ⟨.sent _, link.toServer, rfl, hframes⟩
  | receiving =>
    cases hc with
    | received next hne =>
      rcases hframes with hnil | ⟨g, hg, hlate⟩
      · simp [hnil, hne] at next
      · obtain ⟨rfl, rfl⟩ := singleton_front (hg.symm.trans next) hne
        refine ⟨.received _ ?_, [], rfl, Or.inl rfl⟩
        rw [List.flatten_singleton]
        exact hlate
    | ended _ hres => exact ⟨.ended hres, link.toServer, rfl, hframes⟩
  | closing op hops =>
    cases hops
    cases hc
    exact ⟨.closing _ (.posted _), link.toServer, rfl, hframes⟩

theorem post_sound (hs : Sound pf net) {l₁ l₂ : List Op} {sqe : Sqe} {cqe : Cqe} {l : Option Link}
    (hops : net.ops fd = l₁ ++ .pending sqe :: l₂) (hc : Completes (net.links fd) sqe cqe l) :
    Sound pf { net with
      ops := Function.update net.ops fd (l₁ ++ .posted cqe :: l₂)
      links := Function.update net.links fd l } := by
  apply hs.off_server fd hc.keeps
  have hok := hs.fd fd
  rw [Net.Ok, hops] at hok
  generalize net.links fd = link₀ at hc hok
  cases hok with
  | unused sign idle counter => simp at idle
  | refused sign all =>
    have hop := all (.pending sqe) (by simp)
    cases hop
    cases hc
    exact .refused sign (forall_mem_replace all (.sent _))
  | @exchange link sign joint =>
    cases joint with
    | toClient isOpen waits question idle part out back =>
      rcases waits.post rfl isOpen hc with ⟨rfl, hw⟩ | ⟨gs, rest, res, hg, hne, -⟩
      · exact .exchange sign (.toClient isOpen hw question idle part out back)
      · simp [back, hne] at hg
    | atClient isOpen waits question unread part out back =>
      rcases waits.post rfl isOpen hc with ⟨rfl, hw⟩ | ⟨gs, rest, res, hg, hne, -⟩
      · exact .exchange sign (.atClient isOpen hw question unread part out back)
      · simp [back, hne] at hg
    | toServer isOpen waits reply out back =>
      rcases waits.post rfl isOpen hc with ⟨rfl, hw⟩ | ⟨gs, rest, res, hg, hne, rfl, hres, harr⟩
      · exact .exchange sign (.toServer isOpen hw reply out back)
      · obtain ⟨rfl, rfl⟩ := singleton_front (back.symm.trans hg) hne
        rw [List.flatten_singleton] at hres harr
        have hpos := List.length_pos_iff.mpr reply.ne_nil
        exact .exchange sign (.atServer isOpen harr (by omega) reply out rfl)
    | atServer isOpen arrived hres reply out back => cases (singleton_split arrived.symm).2.1
    | finished closing complete done out back =>
      obtain ⟨rfl, hclose⟩ := closing.post rfl hc
      exact .exchange sign (.finished hclose complete done out back)
  | @abandoned link sign late others =>
    obtain ⟨hlate, rest, rfl, hrest⟩ := (late.ops _ (by simp)).post late.frames hc
    exact .abandoned sign ⟨late.closed, late.taken, forall_mem_replace late.ops hlate, hrest⟩ others

section Clients
variable {cbuf : CircBuf} {cl cl' : Client} {k : ℕ}

theorem Taken.congr (h : Taken cbuf k cl) (hs : cl'.stored = cl.stored)
    (hm : cl'.msgArr = cl.msgArr) : Taken cbuf k cl' :=
  ⟨hs.trans h.stored, hm ▸ h.length, hm ▸ h.room, hm ▸ h.held⟩

theorem Taken.store (h : Taken cbuf k cl) {slot m : SignedMessage} (hs : cl'.stored = cl.stored + 1)
    (hm : cl'.msgArr = cl.msgArr.set k slot) (hk : k < 512) (hslot : slotMsg cbuf k = some m)
    (hsame : SameContent slot m) (hlen : slot.message.length = 512) : Taken cbuf (k + 1) cl' where
  stored := by rw [hs, h.stored]
  length := by rw [hm, List.length_set, h.length]
  room := by
    intro x hx
    rw [hm] at hx
    rcases List.mem_or_eq_of_mem_set hx with hx | rfl
    · exact h.room x hx
    · exact hlen
  held := by
    intro j hj
    rw [hm]
    by_cases hjk : j = k
    · subst hjk
      exact ⟨slot, m, List.getElem?_set_self (by rw [h.length]; exact hk), hslot, hsame⟩
    · obtain ⟨x, mx, hx, hmx, hsx⟩ := h.held j (by omega)
      exact ⟨x, mx, by rw [List.getElem?_set_ne (Ne.symm hjk)]; exact hx, hmx, hsx⟩

theorem Reply.no_turn {codec : Codec} {b : ℕ} {g : List UInt8} (h : Reply codec cbuf cl b g)
    (hp : cl.phase = .receiving) (stamp : Stamp) : clientTurn codec stamp cl = none := by
  cases h with
  | needMore _ waits => exact waits.no_turn codec stamp
  | acknOk _ waits => exact waits.no_turn codec stamp
  | enough _ complete => exact absurd hp complete.phase

end Clients

theorem deliver_sound (hs : Sound pf net) {link : Link} {fs rest : List (List UInt8)}
    (on : net.links fd = some link) (isOpen : link.isOpen = true)
    (next : link.toClient = fs ++ rest) (hne : fs ≠ []) (fits : fs.flatten.length ≤ 4096) :
    Sound pf { net with links := Function.update net.links fd (some { link with
      toClient := rest, client := receive fs.flatten link.client }) } := by
  apply hs.on_link
  have hok := hs.fd fd
  rw [Net.Ok, on] at hok
  cases hok with
  | exchange sign joint =>
    cases joint with
    | toClient _ waits question idle part out back =>
      obtain ⟨rfl, rfl⟩ := singleton_front (out.symm.trans next) hne
      rw [List.flatten_singleton] at fits ⊢
      exact .exchange sign (.atClient isOpen waits question (idle.receive fits)
        ⟨part.lt, part.count, part.taken.congr rfl rfl⟩ rfl back)
    | atClient _ _ _ _ _ out => simp [out, hne] at next
    | toServer _ _ _ out => simp [out, hne] at next
    | atServer _ _ _ _ out => simp [out, hne] at next
    | finished _ _ _ out => simp [out, hne] at next
  | abandoned sign late => simp [late.closed] at isOpen

theorem answer_sound (hs : Sound pf net) {link : Link} {cl : Client}
    {sent : List (Target × List UInt8)} (stamp : Stamp) (on : net.links fd = some link)
    (isOpen : link.isOpen = true) (phase : link.client.phase = .receiving)
    (turn : clientTurn pf.codec stamp link.client = some (cl, sent)) :
    Sound pf { net with links := Function.update net.links fd (some { link with
      toServer := link.toServer ++ framesToServer sent, client := cl }) } := by
  apply hs.on_link
  have hok := hs.fd fd
  rw [Net.Ok, on] at hok
  generalize net.server.befferSendedN fd = b at hok ⊢
  cases hok with
  | abandoned sign late => simp [late.closed] at isOpen
  | exchange sign joint =>
    cases joint with
    | toClient _ _ _ idle => simp [idle.no_turn] at turn
    | toServer _ _ reply => simp [reply.no_turn phase] at turn
    | atServer _ _ _ reply => simp [reply.no_turn phase] at turn
    | finished _ complete => exact absurd phase complete.phase
    | @atClient k f _ waits question unread part out back =>
      apply FdOk.exchange sign
      cases question with
      | ask =>
        obtain ⟨cl', hturn, hwait, hcount, hstored, harr⟩ :=
          clientTurn_ask unread stamp (readOnlyStatusResponse_send _ _ (by simp [Status.Named]))
        rw [hturn, Option.some.injEq, Prod.mk.injEq] at turn
        obtain ⟨rfl, rfl⟩ := turn
        exact .toServer isOpen waits (.needMore stamp hwait
          ⟨part.lt, hcount.trans part.count, part.taken.congr hstored harr⟩) out (by rw [back]; rfl)
      | @message _ m slot =>
        have hm := hs.ready.length_le slot
        by_cases hlast : k = 511
        · obtain ⟨cl', slot', hturn, hphase, hquiet, hstored, harr, hsame, hroom⟩ :=
            clientTurn_last unread stamp rfl hm (part.count.trans hlast) part.taken.length part.taken.room
          rw [hturn, Option.some.injEq, Prod.mk.injEq] at turn
          obtain ⟨rfl, rfl⟩ := turn
          rw [part.count] at harr
          have htaken := part.taken.store hstored harr part.lt slot hsame hroom
          subst hlast
          exact .toServer isOpen waits (.enough stamp ⟨by rw [hphase]; decide, hquiet, htaken⟩) out
            (by rw [back]; rfl)
        · have hlt := part.lt
          obtain ⟨cl', slot', hturn, hwait, hcount, hstored, harr, hsame, hroom⟩ :=
            clientTurn_message unread stamp rfl hm (by rw [part.count]; omega) part.taken.length
              part.taken.room
          rw [hturn, Option.some.injEq, Prod.mk.injEq] at turn
          obtain ⟨rfl, rfl⟩ := turn
          rw [part.count] at harr hcount
          exact .toServer isOpen waits (.acknOk stamp hwait ⟨by omega, hcount,
            part.taken.store hstored harr part.lt slot hsame hroom⟩) out (by rw [back]; rfl)

theorem assemble_sound (hs : Sound pf net) {link : Link} {cl : Client} {m : BlockProcess.Machine}
    {fuel : ℕ} (on : net.links fd = some link) (phase : link.client.phase = .assembling)
    (done : assembleBlock pf.H m fuel link.client = some cl) :
    Sound pf { net with links := Function.update net.links fd (some { link with client := cl }) } := by
  apply hs.on_link
  obtain ⟨hphase, hquiet, hstored, harr⟩ := assembleBlock_spec done
  have hok := hs.fd fd
  rw [Net.Ok, on] at hok
  have hcomplete : Complete net.server.cbuf link.client → Complete net.server.cbuf cl := fun h =>
    ⟨by rw [hphase]; decide, Nat.le_zero.mp (hquiet.trans_eq h.quiet), h.taken.congr hstored harr⟩
  have hreply : ∀ {b g}, Reply pf.codec net.server.cbuf link.client b g →
      Reply pf.codec net.server.cbuf cl b g := by
    intro b g hr
    cases hr with
    | needMore _ waits => simp [waits.phase] at phase
    | acknOk _ waits => simp [waits.phase] at phase
    | enough stamp complete => exact .enough stamp (hcomplete complete)
  cases hok with
  | abandoned sign late others =>
    refine .abandoned sign ⟨late.closed, ?_, ?_, ?_⟩ others
    · rw [hstored]
      exact late.taken.congr hstored harr
    · rw [hstored]
      exact late.ops
    · rw [hstored]
      exact late.frames
  | exchange sign joint =>
    apply FdOk.exchange sign
    cases joint with
    | toClient _ _ _ idle => simp [idle.phase] at phase
    | atClient _ _ _ unread => simp [unread.phase] at phase
    | toServer isOpen waits reply out back => exact .toServer isOpen waits (hreply reply) out back
    | atServer isOpen arrived hres reply out back =>
      exact .atServer isOpen arrived hres (hreply reply) out back
    | finished closing complete done out back =>
      exact .finished closing (hcomplete complete) done out back

end CBlockchain.Transfer
