import SeiChain.Autobahn.Persister
import SeiChain.Autobahn.VoteAggregation
import SeiChain.Autobahn.NextToExecute
import SeiChain.Autobahn.Timestamps
import SeiChain.Autobahn.Producer
import SeiChain.Autobahn.NewProposal
import SeiChain.Autobahn.Agreement
import SeiChain.Autobahn.Restart
import SeiChain.Migration.Transparency
import SeiChain.Migration.TornCommit
import SeiChain.Bank.Locked
import SeiChain.Bank.Invariance
import SeiChain.Evm.BlockSupply
import SeiChain.Evm.BaseFee
import SeiChain.StateStore.Split
import SeiChain.App.Verdicts
import SeiChain.HashVault.Equivocation
import SeiChain.Receipts.Recovery
import SeiChain.MultiVersion.Store
import SeiChain.MultiVersion.MergeIterator
import SeiChain.Hashable.Canonical
import SeiChain.Mempool.Reap
import SeiChain.Oracle.MidBlocker
