import Fws.Networking.Table
import Fws.Networking.Trace

/-!
# Descriptors that the kernel gives out

The table of a server whose descriptors are below the limit on open files, and
what the kernel promises about them.
-/

namespace Fws
open Base.Digits Base.Search

variable {κ : Type}

/- Descriptors are below the limit on open files, which is an `int`. -/
def fdLimit : ℤ := 2 ^ 31 - 1

abbrev TableOk (server : Server) (conns : List Connection) : Prop :=
  ListeningTable fdLimit server conns

theorem fdLimit_le : fdLimit ≤ 2 ^ 31 := by decide

section
variable {server : Server} {conns : List Connection}

theorem TableOk.holds (h : TableOk server conns) : server.Holds conns :=
  ListeningTable.holds h fdLimit_le

theorem TableOk.close (M : Machine κ) {pre post : List Connection} {conn : Connection}
    (h : TableOk server (pre ++ conn :: post)) (k : κ) :
    ∃ server' info, conn.info = some info ∧ TableOk server' (pre ++ post) ∧
      server'.socket = server.socket ∧ server'.status = server.status ∧
      server'.readFdset = server.readFdset.erase conn.socket ∧
      serverCloseConnection M server conn k = some (server', ⟨0, none⟩,
        M.readInfo (M.closesocket (M.freeInfo k info) conn.socket).2 info) :=
  ListeningTable.close M h fdLimit_le k

end

/-! ### What the kernel promises -/

/-- Besides, sockets are descriptors, `select` reports some of what it was asked
about, and a send closes nothing. -/
structure KernelLaws (M : Machine κ) (openFds : κ → Finset ℤ) : Prop
    extends DescriptorLaws fdLimit M openFds where
  socket_range : ∀ k s k', M.socket k = (some s, k') → 0 ≤ s ∧ s < fdLimit
  select_reports : ∀ k n fds active k', M.select k n fds = (.ready active, k') →
    active.Nonempty ∧ active ⊆ fds
  send_keeps : ∀ k s bs, openFds k ⊆ openFds (M.send k s bs).2

/-- Keeping a record of the calls changes nothing for the kernel. -/
theorem KernelLaws.traced {M : Machine κ} {openFds : κ → Finset ℤ} (h : KernelLaws M openFds) :
    KernelLaws (traced M) (fun k => openFds k.1) where
  socket_opens := by
    intro k s k' hs
    obtain ⟨h1, h2⟩ := Prod.mk.inj hs
    have ho := h.socket_opens k.1 s (M.socket k.1).2 (Prod.ext h1 rfl)
    rw [← h2]
    exact ho
  bind_keeps := fun k s port => h.bind_keeps k.1 s port
  listen_keeps := fun k s backlog => h.listen_keeps k.1 s backlog
  socket_range := by
    intro k s k' hs
    obtain ⟨h1, -⟩ := Prod.mk.inj hs
    exact h.socket_range k.1 s (M.socket k.1).2 (Prod.ext h1 rfl)
  select_reports := by
    intro k n fds active k' hs
    obtain ⟨h1, -⟩ := Prod.mk.inj hs
    exact h.select_reports k.1 n fds active (M.select k.1 n fds).2 (Prod.ext h1 rfl)
  select_keeps := fun k n fds => h.select_keeps k.1 n fds
  accept_fresh := by
    intro k s c k' hs
    obtain ⟨h1, h2⟩ := Prod.mk.inj hs
    have hf := h.accept_fresh k.1 s c (M.accept k.1 s).2 (Prod.ext h1 rfl)
    rw [← h2]
    exact hf
  accept_keeps := fun k s => h.accept_keeps k.1 s
  recv_keeps := fun k s n => h.recv_keeps k.1 s n
  send_keeps := fun k s bs => h.send_keeps k.1 s bs
  mallocInfo_keeps := fun k => h.mallocInfo_keeps k.1
  freeInfo_keeps := fun k p => h.freeInfo_keeps k.1 p
  readInfo_keeps := fun k p => h.readInfo_keeps k.1 p
  close_keeps := fun k s => h.close_keeps k.1 s

theorem smallKernel_laws {clients : List ℤ}
    (hclients : ∀ client ∈ clients, 0 ≤ client ∧ client < fdLimit) :
    KernelLaws (smallKernel clients) id where
  toDescriptorLaws := smallKernel_descriptors hclients
  socket_range := by
    intro k s k' h
    cases h
    decide
  select_reports := by
    intro k n fds active k' h
    simp only [smallKernel] at h
    by_cases hfds : fds = ∅
    · rw [if_pos hfds] at h
      cases h
    · rw [if_neg hfds] at h
      cases h
      exact ⟨Finset.nonempty_iff_ne_empty.mpr hfds, Finset.Subset.refl fds⟩
  send_keeps := fun k _ _ => Finset.Subset.refl k

end Fws
