import QuantyDb.HandlesProofs
import QuantyDb.DepthProofs
import QuantyDb.ClientProofs
import QuantyDb.ConversationProofs
import QuantyDb.AuthProofs
import QuantyDb.MetaProofs
import QuantyDb.ChainProofs
import QuantyDb.KeptProofs
import QuantyDb.CursorProofs
import QuantyDb.BlobProofs
import QuantyDb.CatalogProofs
import QuantyDb.CacheProofs
import QuantyDb.WalReplayProofs
import QuantyDb.SqliteSafetyProofs
import QuantyDb.CrcProofs
import QuantyDb.PrefixProofs
import QuantyDb.TokenFileProofs
import QuantyDb.TransactionProofs
import QuantyDb.RecordProofs
import QuantyDb.NameProofs
