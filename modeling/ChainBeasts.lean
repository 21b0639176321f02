import ChainBeasts.Machine
import ChainBeasts.Evm.Word
import ChainBeasts.Evm.Ledger
import ChainBeasts.Evm.Packed
import ChainBeasts.Contracts.Tokens
import ChainBeasts.Contracts.ProofVerifier
import ChainBeasts.Contracts.TrainingRewards
import ChainBeasts.Contracts.BridgeVerifier
import ChainBeasts.Pouw.LossRule
import ChainBeasts.Interleaving
import ChainBeasts.Pouw.Independence
import ChainBeasts.Contracts.Governance
import ChainBeasts.Buffer
import ChainBeasts.Int8.Simd
import ChainBeasts.Int8.Kernel
import ChainBeasts.While
import ChainBeasts.Battle.Engine
import ChainBeasts.Battle.Standoff
import ChainBeasts.Battle.Arena
import ChainBeasts.Duel
import ChainBeasts.Contracts.Matchmaker
import ChainBeasts.Battle.Agreement
import ChainBeasts.Pouw.Consensus
import ChainBeasts.Contracts.GovernanceExecution
import ChainBeasts.Contracts.GovernanceSolvency
import ChainBeasts.Rollback
import ChainBeasts.Pouw.Aggregator
import ChainBeasts.Pouw.Convergence
import ChainBeasts.Pouw.Flooding
import ChainBeasts.Pouw.Quorum
import ChainBeasts.Pouw.Storm
import ChainBeasts.Clock
import ChainBeasts.Contracts.FashionDuel
import ChainBeasts.Contracts.FashionTally
import ChainBeasts.Contracts.FashionVotes
import ChainBeasts.Contracts.Tournament
import ChainBeasts.Contracts.TournamentPrizes
import ChainBeasts.Contracts.TournamentRounds
import ChainBeasts.Contracts.CreatureIds
import ChainBeasts.Contracts.Marketplace
import ChainBeasts.Contracts.MarketplaceEther
import ChainBeasts.Contracts.MarketplaceLeases
import ChainBeasts.Contracts.MarketplaceListings
import ChainBeasts.Contracts.MarketplaceRents
import ChainBeasts.Framing
import ChainBeasts.Pouw.Wire
import ChainBeasts.Pouw.Writers
import ChainBeasts.Contracts.CreatureApprovals
import ChainBeasts.Contracts.BridgeCustody
import ChainBeasts.Contracts.Genomes
import ChainBeasts.Contracts.BridgeRoots
import ChainBeasts.Contracts.TokenLaws
import ChainBeasts.Contracts.MatchQueue
import ChainBeasts.Contracts.CurriculumDuel
import ChainBeasts.Pouw.ProofRoot
import ChainBeasts.InputStream
import ChainBeasts.CString
import ChainBeasts.Int8.Spec
import ChainBeasts.BitFields
import ChainBeasts.Creature.Traits
import ChainBeasts.Chunks
import ChainBeasts.Pouw.Socket
import ChainBeasts.XorLinear
import ChainBeasts.Contracts.CoinToss
import ChainBeasts.Battle.Training
import ChainBeasts.Battle.Animation
import ChainBeasts.Battle.Encounter
import ChainBeasts.Int8.Inference
import ChainBeasts.Int8.Meaning
import ChainBeasts.Progress
import ChainBeasts.Int8.DispatchQueue
import ChainBeasts.Onchain.EthEncoding
import ChainBeasts.Search
import ChainBeasts.Onchain.Curriculum
import ChainBeasts.Onchain.BridgeCli
import ChainBeasts.Battle.Advantage
import ChainBeasts.Contracts.ProofPermanence
import ChainBeasts.Contracts.TrainingStranding
import ChainBeasts.Pouw.ProveAndSubmit
import ChainBeasts.Pouw.ZkProofSystem
import ChainBeasts.Pouw.Session
import ChainBeasts.Harmonics.DiskCache
import ChainBeasts.Harmonics.CheckpointPipeline
import ChainBeasts.Onchain.HttpClient
import ChainBeasts.Onchain.MatchLedger
import ChainBeasts.Onchain.AbiWords
import ChainBeasts.Onchain.ProofSubmission
import ChainBeasts.Onchain.BridgeInTx
import ChainBeasts.Onchain.HexGrammar
import ChainBeasts.Contracts.ItemAttachments
import ChainBeasts.Contracts.LeaseListings
import ChainBeasts.Contracts.TraitLocks
import ChainBeasts.Harmonics.KernelCache
import ChainBeasts.Harmonics.GraphDiffFile
import ChainBeasts.Client.Bracket
import ChainBeasts.Client.PoUWMonitor
import ChainBeasts.Client.PluginMarketplace
import ChainBeasts.Backtracking
import ChainBeasts.Client.PluginCatalogue
import ChainBeasts.Handles
import ChainBeasts.Pouw.Descriptors
import ChainBeasts.Battle.CoinTurns
import ChainBeasts.Creature.Hatching
import ChainBeasts.Battle.Matches
import ChainBeasts.Battle.Simulation
import ChainBeasts.Client.DuelResults
import ChainBeasts.Client.BridgePage
import ChainBeasts.Client.Relay
import ChainBeasts.Client.CombatSimulator
import ChainBeasts.Contracts.SeasonRegistry
