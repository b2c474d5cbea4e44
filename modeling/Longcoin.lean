import Longcoin.CoinsRun
import Longcoin.CoinsUsage
import Longcoin.ChainView
import Longcoin.VersionBits
import Longcoin.LongMessage
import Longcoin.CoinsCodec
import Longcoin.WalletBalance
import Longcoin.WalletCacheRun
import Longcoin.CheckQueueRun
import Longcoin.AddressScanRun
import Longcoin.WalletEncryption
import Longcoin.NetRun
import Longcoin.HeaderSyncRun
import Longcoin.SoftForkBlock
import Longcoin.IndexRecovery
import Longcoin.MinerRun
import Longcoin.MinDifficulty
import Longcoin.DerSignature
import Longcoin.MerkleBranch
import Longcoin.MerkleBlockCodec
import Longcoin.MoneyString
import Longcoin.DownloadWindow
import Longcoin.MempoolIndex
import Longcoin.MempoolRun
import Longcoin.MempoolMinFee
import Longcoin.LockPoints
import Longcoin.WalletOrderRun
import Longcoin.KeyPoolRun
import Longcoin.AddressBookRun
import Longcoin.AddressGroupings
import Longcoin.WalletAbandonReach
import Longcoin.BlockFilesRun
import Longcoin.FundTransaction
import Longcoin.SigOps
import Longcoin.SignatureCache
import Longcoin.StandardTx
import Longcoin.CombineMultisig
import Longcoin.TimestampRecovery
import Longcoin.AnnouncementRun
import Longcoin.LimitedMap
import Longcoin.ListTransactions
import Longcoin.RelayMemory
import Longcoin.RollingBloom
import Longcoin.BloomRelevant
import Longcoin.TimeData
import Longcoin.Base58
import Longcoin.Eviction
import Longcoin.BufferedFile
import Longcoin.PrevectorRun
import Longcoin.OrphanResolution
import Longcoin.ScriptBuilder
import Longcoin.MempoolOrder
import Longcoin.DataStream
import Longcoin.TextEncoding
